import TensorFlowCore.Kernels.Barrier.Model
import Mathlib.Data.List.Induction

/-!
# Which keys are complete

`tally` reads from what has happened which keys have been completed, with the components that have
been accepted for them. The incomplete keys of the barrier are those that have been begun and not
completed (`tally_insertLoop`), and an insert is going to enqueue the tuples that it has completed.
-/

namespace TensorFlowCore

open Function List

namespace Barrier

variable {n : ℕ} {γ : Type}

/-! ### What has been completed -/

/-- The keys that have been begun, and the tuples that have been completed, in that order. -/
structure Tally (n : ℕ) (γ : Type) where
  begun : ByteString → Option (IncompleteTuple n γ)
  completed : List (ReadyTuple n γ)

namespace Tally

/-- An accepted component begins its key, under the index of its insert, or adds to it; the last one
completes it. -/
def record (t : Tally n γ) : BarrierEvent n γ → Tally n γ
  | .accepted key component value index =>
    let element := (t.begun key).getD ⟨index, fun _ ↦ none⟩
    let components := Function.update element.components component (some value)
    if h : ∀ j, (components j).isSome then
      ⟨Function.update t.begun key none,
        t.completed ++ [⟨element.index, key, fun j ↦ (components j).get (h j)⟩]⟩
    else ⟨Function.update t.begun key (some ⟨element.index, components⟩), t.completed⟩
  | .refused key => ⟨Function.update t.begun key none, t.completed⟩

end Tally

def tally (log : List (BarrierEvent n γ)) : Tally n γ := log.foldl Tally.record ⟨fun _ ↦ none, []⟩

/-! ### Where completed tuples come from -/

/-- What has been begun goes back to accepted components, the first of which gives the index. -/
structure BegunBy (log : List (BarrierEvent n γ)) (key : ByteString) (index : ℤ)
    (components : Fin n → Option γ) : Prop where
  index : ∃ component value, BarrierEvent.accepted key component value index ∈ log
  components : ∀ j value, components j = some value →
    ∃ insertIndex, BarrierEvent.accepted key j value insertIndex ∈ log

/-- A tuple has its own components, and the index of an insert of its key. -/
structure CompletedBy (log : List (BarrierEvent n γ)) (tuple : ReadyTuple n γ) : Prop where
  index : ∃ component value, BarrierEvent.accepted tuple.key component value tuple.index ∈ log
  values : ∀ j, ∃ insertIndex, BarrierEvent.accepted tuple.key j (tuple.values j) insertIndex ∈ log

theorem BegunBy.append {log : List (BarrierEvent n γ)} {index : ℤ} {components : Fin n → Option γ}
    (h : BegunBy log key index components) (event : BarrierEvent n γ) :
    BegunBy (log ++ [event]) key index components where
  index := h.index.imp fun _ ⟨value, hvalue⟩ ↦ ⟨value, mem_append_left _ hvalue⟩
  components j value hj := (h.components j value hj).imp fun _ hmem ↦ mem_append_left _ hmem

theorem CompletedBy.append {log : List (BarrierEvent n γ)} {tuple : ReadyTuple n γ}
    (h : CompletedBy log tuple) (event : BarrierEvent n γ) :
    CompletedBy (log ++ [event]) tuple where
  index := h.index.imp fun _ ⟨value, hvalue⟩ ↦ ⟨value, mem_append_left _ hvalue⟩
  values j := (h.values j).imp fun _ hmem ↦ mem_append_left _ hmem

/-- The keys that have been begun and not completed are the incomplete ones. -/
def Tallied (t : Tally n γ) (b : Barrier n γ) : Prop :=
  ∀ key, t.begun key = KeyedList.get? key b.incomplete

/-- What is completed next. -/
structure TalliedAfter (t : Tally n γ) (events : List (BarrierEvent n γ)) (b : Barrier n γ)
    (ready : List (ReadyTuple n γ)) : Prop where
  tallied : Tallied (events.foldl Tally.record t) b
  completed : (events.foldl Tally.record t).completed = t.completed ++ ready

theorem Tallied.getD {t : Tally n γ} {b : Barrier n γ} (h : Tallied t b)
    {element : IncompleteTuple n γ} (hfound : Found b key element) :
    (t.begun key).getD ⟨b.inputIndex, fun _ ↦ none⟩ = element := by
  rw [h key]
  obtain hsome | ⟨hnone, -, rfl⟩ := hfound
  · rw [hsome]
    rfl
  · rw [hnone]
    rfl

/-- The tuples that one key gives. -/
def readyOf (result : Except Status (Option (ReadyTuple n γ))) : List (ReadyTuple n γ) :=
  match result with
  | .ok ready => ready.toList
  | .error _ => []

variable (validateTuple : ReadyTuple n γ → Option Status)
include validateTuple

/-- The specification's tally agrees with the barrier after each key. -/
theorem talliedAfter_insertOneLocked {t : Tally n γ} {b : Barrier n γ} (h : Tallied t b)
    (component : Fin n) (i : ℕ) (key : ByteString) (value : γ) :
    TalliedAfter t (b.insertOneLocked validateTuple component i key value).events
      (b.insertOneLocked validateTuple component i key value).barrier
      (readyOf (b.insertOneLocked validateTuple component i key value).result) := by
  have herase (k : ByteString) :
      update t.begun key none k = KeyedList.get? k (KeyedList.erase key b.incomplete) := by
    rw [update_apply, KeyedList.get?_erase, h k]
  cases insertOneLocked_effect validateTuple b component i key value with
  | rejected status _ hb hevents hresult =>
    rw [hb, hevents, hresult]
    exact ⟨h, (append_nil _).symm⟩
  | refused element _ ready _ status _ hb hevents hresult =>
    rw [hb, hevents, hresult]
    exact ⟨herase, (append_nil _).symm⟩
  | stored element hfound _ hmissing hb hevents hresult =>
    rw [hb, hevents, hresult]
    have hrecord : t.record (.accepted key component value b.inputIndex) =
        ⟨update t.begun key
          (some ⟨element.index, update element.components component (some value)⟩),
          t.completed⟩ := by
      unfold Tally.record
      simp only [h.getD hfound]
      obtain ⟨j, hj⟩ := hmissing
      rw [dif_neg fun hall ↦ by have := hall j; rw [hj] at this; cases this]
    refine ⟨fun k ↦ ?_, ?_⟩
    · rw [foldl_cons, foldl_nil, hrecord]
      dsimp only
      rw [update_apply, KeyedList.get?_set, h k]
    · rw [foldl_cons, foldl_nil, hrecord]
      exact (append_nil _).symm
  | completed element hfound ready hcompletes _ hb hevents hresult =>
    rw [hb, hevents, hresult]
    have hall : ∀ j, (update element.components component (some value) j).isSome = true :=
      fun j ↦ by rw [← hcompletes.values j]; rfl
    have hrecord : t.record (.accepted key component value b.inputIndex) =
        ⟨update t.begun key none, t.completed ++ [ready]⟩ := by
      unfold Tally.record
      simp only [h.getD hfound]
      rw [dif_pos hall]
      refine congrArg (fun tuple ↦ Tally.mk _ (t.completed ++ [tuple]))
        (Completes.unique ?_ hcompletes)
      exact ⟨hcompletes.lacks, rfl, rfl, fun j ↦ Option.some_get _⟩
    refine ⟨fun k ↦ ?_, ?_⟩
    · rw [foldl_cons, foldl_nil, hrecord]
      exact herase k
    · rw [foldl_cons, foldl_nil, hrecord]
      rfl

/-- An insert has completed the tuples that are ready. -/
theorem talliedAfter_insertLoop (component : Fin n) (batch : List (ByteString × γ)) (i : ℕ)
    {t : Tally n γ} {b : Barrier n γ} (h : Tallied t b) :
    TalliedAfter t (insertLoop validateTuple component i batch b).events
      (insertLoop validateTuple component i batch b).barrier
      (insertLoop validateTuple component i batch b).readyTuples := by
  induction batch generalizing i t b with
  | nil => exact ⟨h, (append_nil _).symm⟩
  | cons e batch ih =>
    obtain ⟨key, value⟩ := e
    have hone := talliedAfter_insertOneLocked validateTuple h component i key value
    cases hresult : (b.insertOneLocked validateTuple component i key value).result with
    | error status =>
      rw [hresult] at hone
      rw [insertLoop_cons_of_error hresult]
      exact hone
    | ok ready =>
      rw [hresult] at hone
      obtain ⟨hbarrier, hevents, hready, -⟩ := insertLoop_cons_of_ok batch hresult
      have hrest := ih (i + 1) hone.tallied
      rw [hbarrier, hevents, hready]
      refine ⟨?_, ?_⟩
      · rw [foldl_append]
        exact hrest.tallied
      · rw [foldl_append, hrest.completed, hone.completed, append_assoc]
        rfl

theorem length_insertLoop (component : Fin n) (batch : List (ByteString × γ)) (i : ℕ)
    (b : Barrier n γ) :
    (insertLoop validateTuple component i batch b).readyTuples.length ≤ batch.length := by
  induction batch generalizing i b with
  | nil => exact le_rfl
  | cons e batch ih =>
    obtain ⟨key, value⟩ := e
    cases hresult : (b.insertOneLocked validateTuple component i key value).result with
    | error status =>
      rw [insertLoop_cons_of_error hresult]
      exact Nat.zero_le _
    | ok ready =>
      rw [(insertLoop_cons_of_ok batch hresult).2.2.1, length_append, length_cons, Nat.add_comm]
      refine Nat.add_le_add (ih (i + 1) _) ?_
      cases ready with
      | none => exact Nat.zero_le 1
      | some tuple => exact le_rfl

end Barrier

end TensorFlowCore
