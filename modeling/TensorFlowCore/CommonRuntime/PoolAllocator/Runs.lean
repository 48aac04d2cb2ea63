import Mathlib.Data.List.Perm.Basic
import TensorFlowCore.CommonRuntime.PoolAllocator.Chunks

/-!
# The allocator over whole runs

`Sound` is what a program that uses the allocator may rely on in every state it comes to: the
pointers it holds are aligned and their bytes lie in chunks that overlap neither each other nor one
in the pool, a chunk is found from its pointer, the list is the one of the records in the pool with
the chunk freed last in front, the pool is not larger than its limit, and every chunk is one that
the program holds or one in the pool. Both calls return, and an eviction frees the chunk that has
been longest in the pool. `sound_of_reachable` derives this from the invariant `Inv`, which every
step preserves.
-/

namespace TensorFlowCore.PoolAllocator

open List Option State WordMemory

variable {cfg : Config} {s s' : System} {l : List ℕ} {pooled : List (ℕ × ℕ)}

/-- The invariant, with the records of the list and their chunks. -/
structure Inv (cfg : Config) (s : System) (l : List ℕ) (pooled : List (ℕ × ℕ)) : Prop where
  lru : Lru s.state l
  chunks : pooled.map some = l.map s.state.chunkOf
  le_limit : l.length ≤ s.state.poolSizeLimit
  limit_pos : cfg.hasSizeLimit = true → 0 < s.state.poolSizeLimit
  unlimited : cfg.hasSizeLimit = false → l = []
  held : s.held.Perm (s.live.map Live.owner ++ pooled)
  separate : (s.live.map Live.owner ++ pooled).Pairwise Separate
  isChunk : ∀ c ∈ s.live.map Live.owner ++ pooled, IsChunk c
  placed : ∀ a ∈ s.live, Placed s.mem a

theorem Separate.symm {c d : ℕ × ℕ} (h : Separate c d) : Separate d c := Or.symm h

/-! ### Allocations -/

/-- The size of the chunk for a request that fits. -/
theorem chunkSize_eq {alignment numBytes : ℕ} (h : Fits cfg alignment numBytes) :
    chunkSize cfg alignment numBytes =
      cfg.roundUp (numBytes + (if kPoolAlignment < alignment then alignment else 0) +
        prefixSize) := by
  obtain ⟨-, -, htotal, -⟩ := h
  rw [chunkSize]
  split
  · next hlarge =>
    rw [if_pos hlarge] at htotal
    rw [Nat.mod_eq_of_lt (a := numBytes + alignment) (by omega), Nat.mod_eq_of_lt htotal]
  · next hsmall =>
    rw [if_neg hsmall, Nat.add_zero] at htotal
    rw [Nat.mod_eq_of_lt htotal, Nat.add_zero]

/-- A chunk that is given to the program. The others stay as they are. -/
theorem Inv.give {state : State} {mem : Memory} {a : Live} {held : List (ℕ × ℕ)} {l' : List ℕ}
    {pooled' : List (ℕ × ℕ)} (h : Inv cfg s l pooled) (hlru : Lru state l')
    (hchunks : pooled'.map some = l'.map state.chunkOf) (hlength : l'.length ≤ l.length)
    (hlimit : state.poolSizeLimit = s.state.poolSizeLimit)
    (hheld : held.Perm (a.owner :: (s.live.map Live.owner ++ pooled')))
    (hseparate : (a.owner :: (s.live.map Live.owner ++ pooled')).Pairwise Separate)
    (hchunk : ∀ c ∈ a.owner :: (s.live.map Live.owner ++ pooled'), IsChunk c)
    (hplaced : Placed mem a)
    (hmem : ∀ b n, b + n ≤ a.chunk ∨ a.chunk + a.size ≤ b → AgreeOn s.mem mem b n) :
    Inv cfg ⟨state, mem, a :: s.live, held⟩ l' pooled' where
  lru := hlru
  chunks := hchunks
  le_limit := hlimit ▸ hlength.trans h.le_limit
  limit_pos := hlimit ▸ h.limit_pos
  unlimited := fun hno ↦ length_eq_zero_iff.1 (Nat.le_zero.1 (by rwa [h.unlimited hno] at hlength))
  held := hheld
  separate := hseparate
  isChunk := hchunk
  placed := by
    intro b hb
    obtain rfl | hb := mem_cons.1 hb
    · exact hplaced
    · have hbplaced := h.placed b hb
      refine hbplaced.congr (hmem _ _ ?_)
      have hsep := (pairwise_cons.1 hseparate).1 b.owner (mem_append_left _ (mem_map_of_mem hb))
      have hinside := hbplaced.inside
      have hbehind := hbplaced.behind
      rcases hsep with hbefore | hafter
      · exact .inr hbefore
      · refine .inl ?_
        change b.chunk + b.size ≤ a.chunk at hafter
        omega

theorem allocateRaw_eq {state : State} {mem : Memory} {alignment numBytes size fresh chunk ptr : ℕ}
    {fromPool : Bool} (hpos : 0 < numBytes) (hsize : chunkSize cfg alignment numBytes = size)
    (htake : takeChunk cfg s.state size fresh = some (state, chunk, fromPool))
    (hprepare : prepareChunk s.mem chunk alignment size = some (mem, ptr)) :
    allocateRaw cfg s.state s.mem alignment numBytes fresh =
      some ⟨state, mem, ptr, chunk, size, fromPool⟩ := by
  rw [allocateRaw, if_neg hpos.ne', hsize]
  dsimp only
  rw [htake, bind_eq_bind, bind_some]
  rw [hprepare]
  rfl

/-- A request that fits is served, and the invariant holds, if what the `SubAllocator` gives is
fresh. -/
theorem Inv.allocate (h : Inv cfg s l pooled) {alignment numBytes : ℕ}
    (hfits : Fits cfg alignment numBytes) (fresh : ℕ)
    (hfresh : ∀ state chunk, takeChunk cfg s.state (chunkSize cfg alignment numBytes) fresh =
      some (state, chunk, false) →
      Fresh s.held (fresh, chunkSize cfg alignment numBytes)) :
    ∃ a l' pooled', allocateRaw cfg s.state s.mem alignment numBytes fresh = some a ∧
      Inv cfg ⟨a.state, a.mem, ⟨a.ptr, alignment, numBytes, a.chunk, a.size⟩ :: s.live,
        if a.fromPool then s.held else (fresh, a.size) :: s.held⟩ l' pooled' := by
  have hle := cfg.le_roundUp (numBytes + (if kPoolAlignment < alignment then alignment else 0) +
    prefixSize)
  rw [← chunkSize_eq hfits] at hle
  generalize hsize : chunkSize cfg alignment numBytes = size at *
  obtain ⟨⟨k, rfl⟩, hpos, -, -⟩ := hfits
  obtain ⟨state, chunk, fromPool, htake, hlimit,
    ⟨rfl, rfl, hlru, hsame⟩ | ⟨rfl, l₁, r, l₂, rfl, hchunk, hlru, hsame⟩⟩ :=
    takeChunk_lru cfg h.lru size fresh
  · -- a chunk from the `SubAllocator`
    obtain ⟨hdvd, hstart, hend, hsep⟩ := hfresh state chunk htake
    have hnew : IsChunk (chunk, size) := ⟨hdvd, hstart, hend⟩
    obtain ⟨mem, ptr, hprepare, hplaced, hframe⟩ := exists_prepareChunk s.mem hnew hpos hle
    refine ⟨_, l, pooled, allocateRaw_eq hpos hsize htake hprepare,
      h.give hlru ?_ le_rfl hlimit (h.held.cons _) ?_ ?_
      hplaced hframe⟩
    · rw [h.chunks]
      exact map_congr_left fun c hc ↦ (hsame c hc).symm
    · exact pairwise_cons.2 ⟨fun c hc ↦ hsep c (h.held.mem_iff.2 hc), h.separate⟩
    · exact forall_mem_cons.2 ⟨hnew, h.isChunk⟩
  · -- a chunk from the pool
    obtain ⟨p₁, p₂, rfl, hp₁, hp₂⟩ : ∃ p₁ p₂, pooled = p₁ ++ (chunk, size) :: p₂ ∧
        p₁.map some = l₁.map s.state.chunkOf ∧ p₂.map some = l₂.map s.state.chunkOf := by
      have hchunks := h.chunks
      rw [map_append, map_cons, hchunk] at hchunks
      obtain ⟨p₁, rest, rfl, hp₁, hrest⟩ := map_eq_append_iff.1 hchunks
      obtain ⟨c, p₂, rfl, hc, hp₂⟩ := map_eq_cons_iff.1 hrest
      exact ⟨p₁, p₂, by rw [some.inj hc], hp₁, hp₂⟩
    have hperm : (s.live.map Live.owner ++ (p₁ ++ (chunk, size) :: p₂)).Perm
        ((chunk, size) :: (s.live.map Live.owner ++ (p₁ ++ p₂))) := by
      rw [← append_assoc, ← append_assoc]
      exact perm_middle
    have hchunks : ∀ c ∈ (chunk, size) :: (s.live.map Live.owner ++ (p₁ ++ p₂)), IsChunk c :=
      fun c hc ↦
      h.isChunk c (hperm.mem_iff.2 hc)
    obtain ⟨mem, ptr, hprepare, hplaced, hframe⟩ :=
      exists_prepareChunk s.mem (hchunks _ mem_cons_self) hpos hle
    refine ⟨_, l₁ ++ l₂, p₁ ++ p₂, allocateRaw_eq hpos hsize htake hprepare,
      h.give hlru ?_ ?_ hlimit
      (h.held.trans hperm) (hperm.pairwise h.separate Separate.symm) hchunks hplaced hframe⟩
    · rw [map_append, hp₁, hp₂, ← map_append]
      exact map_congr_left fun c hc ↦ (hsame c hc).symm
    · rw [length_append, length_append, length_cons]
      omega

/-! ### Deallocations -/

theorem perm_diff {α : Type*} [BEq α] [LawfulBEq α] {held x f f' : List α} (h : held.Perm (x ++ f))
    (hf : f'.Perm f) : (held.diff f').Perm x := by
  have hcancel : ∀ f : List α, (f ++ x).diff f = x := by
    intro f
    induction f with
    | nil => exact diff_nil x
    | cons b f ih => rw [cons_append, diff_cons, erase_cons_head, ih]
  calc (held.diff f').Perm ((x ++ f).diff f') := h.diff_right f'
    _ = (x ++ f).diff f := hf.diff_left (x ++ f)
    Perm _ ((f ++ x).diff f) := perm_append_comm.diff_right f
    _ = x := hcancel f

/-- A pointer that is given back, with its chunk. -/
theorem perm_owner_erase {a : Live} (ha : a ∈ s.live) (pooled : List (ℕ × ℕ)) :
    (s.live.map Live.owner ++ pooled).Perm ((s.live.erase a).map Live.owner ++ a.owner :: pooled) :=
  (((perm_cons_erase ha).map Live.owner).append_right pooled).trans perm_middle.symm

/-- A pointer of the program is taken back, and the invariant holds. The chunks that are freed are
those of the last records, from the last one on. -/
theorem Inv.deallocate (h : Inv cfg s l pooled) {a : Live} (ha : a ∈ s.live) :
    ∃ state freed l' pooled', deallocateRaw cfg s.state s.mem a.ptr = some (state, freed) ∧
      Inv cfg { s with state, live := s.live.erase a, held := s.held.diff freed } l' pooled' ∧
      ((cfg.hasSizeLimit = false ∧ freed = [a.owner]) ∨
        ∃ kept evicted, l = kept ++ evicted ∧ freed.map some = evicted.reverse.map s.state.chunkOf ∧
          l' = s.state.nextRecord :: kept ∧ state.chunkOf s.state.nextRecord = some a.owner) := by
  have hplaced := h.placed a ha
  have hbehind := hplaced.behind
  rw [prefixSize] at hbehind
  have hplaced' : ∀ b ∈ s.live.erase a, Placed s.mem b :=
    fun b hb ↦ h.placed b (mem_of_mem_erase hb)
  have hptr : a.ptr ≠ 0 := by omega
  have hle : a.chunk ≤ a.ptr := by omega
  rw [deallocateRaw, if_neg hptr]
  dsimp only
  rw [hplaced.findPrefix_eq, hplaced.numBytes_eq, if_pos hle]
  by_cases hno : cfg.hasSizeLimit = false
  · -- the chunk is freed at once
    have hauto : cfg.autoResize = false := by
      by_contra hauto
      have hpos := cfg.limit_pos (Bool.eq_true_of_not_eq_false hauto)
      rw [Config.hasSizeLimit, decide_eq_false_iff_not] at hno
      exact hno hpos
    rw [if_pos ⟨hno, hauto⟩]
    have hperm := perm_owner_erase ha pooled
    have hrest : ((s.live.erase a).map Live.owner ++ pooled).Sublist
        ((s.live.erase a).map Live.owner ++ a.owner :: pooled) :=
      (sublist_cons_self _ _).append_left _
    refine ⟨_, _, l, pooled, rfl, ⟨h.lru, h.chunks, h.le_limit, h.limit_pos, h.unlimited, ?_, ?_,
      ?_, hplaced'⟩, .inl ⟨hno, rfl⟩⟩
    · refine perm_diff (f := [a.owner]) (h.held.trans (hperm.trans ?_)) (Perm.refl _)
      exact perm_middle.trans (perm_append_singleton _ _).symm
    · exact (hperm.pairwise h.separate Separate.symm).sublist hrest
    · exact fun c hc ↦ h.isChunk c (hperm.mem_iff.2 (hrest.subset hc))
  · -- the chunk is put in the pool
    have hlimit := h.limit_pos (Bool.eq_true_of_not_eq_false hno)
    have hcount : Lru { s.state with putCount := s.state.putCount + 1 } l :=
      h.lru.congr ⟨rfl, rfl, rfl, rfl, rfl⟩
    obtain ⟨t, kept, evicted, freed, hevict, rfl, hfreed, hlru, hsame, hroom, hnext⟩ :=
      evict_lru cfg hcount hlimit
    obtain ⟨t', hput, hlru', hchunk, hsame', hlimit'⟩ := put_lru hlru a.chunk a.size
    rw [hnext] at hlru' hchunk
    obtain ⟨pk, pe, rfl, hpk, hpe⟩ := map_eq_append_iff.1 (h.chunks.trans map_append)
    have hfreed' : freed = pe.reverse := by
      refine map_injective_iff.2 (some_injective _) ?_
      rw [hfreed, map_reverse, map_reverse, hpe]
      rfl
    have hperm : (s.live.map Live.owner ++ (pk ++ pe)).Perm
        (((s.live.erase a).map Live.owner ++ a.owner :: pk) ++ pe) := by
      rw [← append_assoc]
      exact (perm_owner_erase ha pk).append_right pe
    have hrest : ((s.live.erase a).map Live.owner ++ a.owner :: pk).Sublist
        (((s.live.erase a).map Live.owner ++ a.owner :: pk) ++ pe) := sublist_append_left _ _
    rw [if_neg fun hand ↦ hno hand.1, hevict]
    refine ⟨t', freed, s.state.nextRecord :: kept, a.owner :: pk, ?_,
      ⟨hlru', ?_, ?_, ?_, fun h' ↦ absurd h' hno, ?_, ?_, ?_, hplaced'⟩,
      .inr ⟨kept, evicted, rfl, hfreed, rfl, hchunk⟩⟩
    · exact congrArg (bind · fun s ↦ some (s, freed)) hput
    · rw [map_cons, map_cons, hpk, hchunk]
      exact congrArg _ (map_congr_left fun c hc ↦ ((hsame' c hc).trans (hsame c hc)).symm)
    · show kept.length + 1 ≤ t'.poolSizeLimit
      rw [hlimit']
      exact hroom
    · intro _
      show 0 < t'.poolSizeLimit
      rw [hlimit']
      exact Nat.zero_lt_of_lt hroom
    · exact perm_diff (h.held.trans hperm) (hfreed' ▸ reverse_perm pe)
    · exact (hperm.pairwise h.separate Separate.symm).sublist hrest
    · exact fun c hc ↦ h.isChunk c (hperm.mem_iff.2 (hrest.subset hc))

/-! ### All steps -/

/-- `Clear` gives all chunks of the pool back to the allocator. -/
theorem Inv.clear (h : Inv cfg s l pooled) : ∃ l' pooled',
    Inv cfg { s with state := (clear cfg s.state).1, held := s.held.diff (clear cfg s.state).2 } l'
    pooled' := by
  rw [PoolAllocator.clear]
  split
  · have hsub : (s.live.map Live.owner).Sublist (s.live.map Live.owner ++ pooled) :=
      sublist_append_left _ _
    -- the chunks of the pool, in the order of the pool
    have hfreed : (s.state.pool.filterMap fun element ↦ (s.state.records element.2).map
        PtrRecord.chunk).Perm pooled := by
      have hmap : (s.state.pool.map Prod.snd).filterMap s.state.chunkOf =
          s.state.pool.filterMap fun element ↦ (s.state.records element.2).map PtrRecord.chunk :=
          filterMap_map
      rw [← hmap]
      refine (h.lru.perm.filterMap s.state.chunkOf).trans (Perm.of_eq ?_)
      have hall : (l.map s.state.chunkOf).filterMap id = (pooled.map some).filterMap id := by
        rw [h.chunks]
      rwa [filterMap_map, filterMap_map, Function.id_comp, Function.id_comp, filterMap_some] at hall
    refine ⟨[], [], ⟨⟨⟨?_, rfl, rfl, ?_⟩, Pairwise.nil, ?_, Perm.refl _, ?_⟩, rfl, Nat.zero_le _,
      h.limit_pos,
      fun _ ↦ rfl, ?_, ?_, ?_, h.placed⟩⟩
    · intro l₁ a l₂ hnil
      exact absurd hnil.symm (append_ne_nil_of_right_ne_nil _ (cons_ne_nil _ _))
    · exact fun r hr ↦ absurd hr not_mem_nil
    · exact fun r hr ↦ absurd hr not_mem_nil
    · exact fun element helement ↦ absurd helement not_mem_nil
    · rw [append_nil]
      exact perm_diff h.held hfreed
    · rw [append_nil]
      exact h.separate.sublist hsub
    · rw [append_nil]
      exact fun c hc ↦ h.isChunk c (hsub.subset hc)
  · exact ⟨l, pooled, h⟩

theorem Inv.init (cfg : Config) (mem : Memory) :
    Inv cfg { state := { poolSizeLimit := cfg.poolSizeLimit }, mem } [] [] where
  lru := by
    refine ⟨⟨fun l₁ a l₂ hnil ↦ ?_, rfl, rfl, fun r hr ↦ ?_⟩, Pairwise.nil, fun r hr ↦ ?_,
      Perm.refl _, fun e he ↦ ?_⟩
    · exact absurd hnil.symm (append_ne_nil_of_right_ne_nil _ (cons_ne_nil _ _))
    · exact absurd hr not_mem_nil
    · exact absurd hr not_mem_nil
    · exact absurd he not_mem_nil
  chunks := rfl
  le_limit := Nat.zero_le _
  limit_pos := fun hlimit ↦ of_decide_eq_true hlimit
  unlimited := fun _ ↦ rfl
  held := Perm.refl _
  separate := Pairwise.nil
  isChunk := fun c hc ↦ absurd hc not_mem_nil
  placed := fun a ha ↦ absurd ha not_mem_nil

/-- **The invariant is preserved.** -/
theorem Inv.step (h : Inv cfg s l pooled) (hstep : Step cfg s s') :
    ∃ l' pooled', Inv cfg s' l' pooled' := by
  cases hstep with
  | @allocate alignment numBytes fresh a hfits ha hfresh =>
    obtain ⟨a', l', pooled', ha', hinv⟩ := h.allocate hfits fresh fun state chunk htake ↦ by
      have hpos : numBytes ≠ 0 := hfits.2.1.ne'
      -- the chunk that is used is the one that has been taken
      rw [allocateRaw, if_neg hpos] at ha
      dsimp only at ha
      rw [htake, bind_eq_bind, bind_some] at ha
      obtain ⟨⟨mem, ptr⟩, -, heq⟩ := bind_eq_some_iff.1 ha
      cases heq
      exact hfresh rfl
    obtain rfl := some.inj (ha.symm.trans ha')
    exact ⟨l', pooled', hinv⟩
  | @deallocate a state freed ha hstate =>
    obtain ⟨state', freed', l', pooled', hstate', hinv, -⟩ := h.deallocate ha
    obtain ⟨rfl, rfl⟩ := Prod.mk.inj (some.inj (hstate.symm.trans hstate'))
    exact ⟨l', pooled', hinv⟩
  | clear => exact h.clear
  | write hmem =>
    exact ⟨l, pooled, { h with placed := fun a ha ↦ (h.placed a ha).congr (hmem a ha).1 }⟩

theorem exists_inv (h : Reachable cfg s) : ∃ l pooled, Inv cfg s l pooled := by
  induction h with
  | init mem => exact ⟨[], [], Inv.init cfg mem⟩
  | step _ hstep ih =>
    obtain ⟨l, pooled, hinv⟩ := ih
    exact hinv.step hstep

/-! ## What a program may rely on -/

/-- The ranges of addresses of a pointer's bytes and of a chunk. -/
def Live.bytes (a : Live) : ℕ × ℕ := (a.ptr, a.numBytes)

/-- What a program may rely on. -/
structure Sound (cfg : Config) (s : System) : Prop where
  /-- Pointers are aligned. -/
  aligned : ∀ a ∈ s.live, a.alignment ∣ a.ptr
  /-- The bytes lie in the chunk, behind its prefix. -/
  inside : ∀ a ∈ s.live, a.chunk + prefixSize ≤ a.ptr ∧ a.ptr + a.numBytes ≤ a.chunk + a.size
  /-- The chunk is found from the pointer. -/
  findPrefix_eq : ∀ a ∈ s.live, findPrefix s.mem a.ptr = a.chunk
  /-- The list is the one of the records in the pool. Neither the chunks of the program and of the
  pool overlap nor the bytes that the program uses, and these chunks are the ones that the
  `SubAllocator` has given and not got back. -/
  disjoint : ∃ l pooled, Lru s.state l ∧ pooled.map some = l.map s.state.chunkOf ∧
    (s.live.map Live.owner ++ pooled).Pairwise Separate ∧
    (s.live.map Live.bytes ++ pooled).Pairwise Separate ∧
    s.held.Perm (s.live.map Live.owner ++ pooled)
  /-- The pool is not too large. -/
  le_limit : s.state.pool.length ≤ s.state.poolSizeLimit
  /-- An eviction frees the chunk of the last record. -/
  evicts : ∀ l r, Lru s.state (l ++ [r]) → ∃ state chunk, s.state.chunkOf r = some chunk ∧
    s.state.evictOne cfg = some (state, chunk) ∧ Lru state l
  /-- A request that fits is served. -/
  allocates : ∀ alignment numBytes fresh, Fits cfg alignment numBytes →
    Fresh s.held (fresh, chunkSize cfg alignment numBytes) →
      ∃ a, allocateRaw cfg s.state s.mem alignment numBytes fresh = some a
  /-- A pointer is taken back: its chunk is freed if there is no pool, and otherwise it comes first
  in the list, after the chunks of the last records have been freed, the one that has been there
  longest first. -/
  deallocates : ∀ a ∈ s.live, ∃ state freed, deallocateRaw cfg s.state s.mem a.ptr =
    some (state, freed) ∧
    ((cfg.hasSizeLimit = false ∧ freed = [a.owner]) ∨
      ∃ kept evicted r, Lru s.state (kept ++ evicted) ∧
      freed.map some = evicted.reverse.map s.state.chunkOf ∧
        Lru state (r :: kept) ∧ state.chunkOf r = some a.owner)

/-- Bytes inside chunks that do not overlap. -/
theorem Inv.separate_bytes (h : Inv cfg s l pooled) :
    (s.live.map Live.bytes ++ pooled).Pairwise Separate := by
  have hinside : ∀ a ∈ s.live, ∀ c, (Separate a.owner c → Separate a.bytes c) ∧
      (Separate c a.owner → Separate c a.bytes) := by
    intro a ha c
    have hbehind := (h.placed a ha).behind
    have hinside := (h.placed a ha).inside
    simp only [Separate, Live.owner, Live.bytes]
    omega
  obtain ⟨hlive, hpooled, hboth⟩ := pairwise_append.1 h.separate
  refine pairwise_append.2 ⟨?_, hpooled, ?_⟩
  · rw [pairwise_map] at hlive ⊢
    exact hlive.imp_of_mem fun ha hb hsep ↦ (hinside _ ha _).1 ((hinside _ hb _).2 hsep)
  · intro c hc d hd
    obtain ⟨a, ha, rfl⟩ := mem_map.1 hc
    exact (hinside a ha d).1 (hboth _ (mem_map_of_mem ha) d hd)

/-- In every state that a program comes to. -/
theorem sound_of_reachable (h : Reachable cfg s) : Sound cfg s := by
  obtain ⟨l, pooled, hinv⟩ := exists_inv h
  exact {
    aligned := fun a ha ↦ (hinv.placed a ha).aligned
    inside := fun a ha ↦ ⟨(hinv.placed a ha).behind, (hinv.placed a ha).inside⟩
    findPrefix_eq := fun a ha ↦ (hinv.placed a ha).findPrefix_eq
    disjoint := ⟨l, pooled, hinv.lru, hinv.chunks, hinv.separate, hinv.separate_bytes, hinv.held⟩
    le_limit := by rw [hinv.lru.length_eq]; exact hinv.le_limit
    evicts := fun l r hlru ↦ by
      obtain ⟨state, chunk, hchunk, hevict, hlru', -⟩ := evictOne_lru cfg hlru
      exact ⟨state, chunk, hchunk, hevict, hlru'⟩
    allocates := fun alignment numBytes fresh hfits hfresh ↦ by
      obtain ⟨a, -, -, ha, -⟩ := hinv.allocate hfits fresh fun _ _ _ ↦ hfresh
      exact ⟨a, ha⟩
    deallocates := fun a ha ↦ by
      obtain ⟨state, freed, l', pooled', hstate, hinv',
        hno | ⟨kept, evicted, rfl, hfreed, rfl, hchunk⟩⟩ := hinv.deallocate ha
      · exact ⟨state, freed, hstate, .inl hno⟩
      · exact ⟨state, freed, hstate, .inr ⟨kept, evicted, _, hinv.lru, hfreed, hinv'.lru, hchunk⟩⟩ }

/-- A pool with one chunk at most. -/
def oneChunk : Config where
  poolSizeLimit := 1
  autoResize := false
  roundUp := pow2Rounder
  increased := id
  exceedsTolerable := fun _ _ ↦ false
  limit_pos := fun h ↦ absurd h Bool.false_ne_true
  le_roundUp := le_pow2Rounder
  le_increased := le_refl

/-- A chunk is used for an aligned request, freed, and used again. -/
theorem sound_oneChunk :
    ∃ s, Reachable oneChunk s ∧ s.live = [⟨4112, 8, 164, 4096, 256⟩] ∧ Sound oneChunk s := by
  have hfits : Fits oneChunk (2 ^ 6) 100 := ⟨⟨6, rfl⟩, by decide, by decide, by decide⟩
  have hfits' : Fits oneChunk (2 ^ 3) 164 := ⟨⟨3, rfl⟩, by decide, by decide, by decide⟩
  have hfresh : Fresh [] (4096, 256) :=
    ⟨by decide, by decide, by decide, fun d hd ↦ absurd hd not_mem_nil⟩
  have h₁ := (@Reachable.init oneChunk fun _ ↦ 0).step
    (@Step.allocate _ _ _ _ 4096 _ hfits rfl fun _ ↦ hfresh)
  have h₂ := h₁.step (.deallocate mem_cons_self rfl)
  have h₃ := h₂.step (@Step.allocate _ _ _ _ 0 _ hfits' rfl fun hno ↦ Bool.noConfusion hno)
  exact ⟨_, h₃, rfl, sound_of_reachable h₃⟩

end TensorFlowCore.PoolAllocator
