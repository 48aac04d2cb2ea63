import Mathlib.Data.List.Induction

/-!
# Threads that write to a memory

`Interleaving ts l` says that `l` is what the threads `ts` do, in some order that keeps the order of
each of them. When all writes to a place write the same, as they do if each place belongs to one
thread, it does not matter what the order is (`writeAll_eq`).
-/

/-- The threads take turns, and `l` is what they do. -/
inductive Interleaving {α : Type*} : List (List α) → List α → Prop where
  | done {ts : List (List α)} (h : ∀ t ∈ ts, t = []) : Interleaving ts []
  | step {ts : List (List α)} {i : ℕ} {a : α} {t l : List α} (hi : ts[i]? = some (a :: t))
    (h : Interleaving (ts.set i t) l) : Interleaving ts (a :: l)

namespace Interleaving

open List

variable {α : Type*} {ts : List (List α)} {l : List α}

/-- Nothing is lost, and nothing is done twice. -/
theorem mem_iff (h : Interleaving ts l) {a : α} : a ∈ l ↔ ∃ t ∈ ts, a ∈ t := by
  induction h with
  | done h =>
    refine iff_of_false not_mem_nil ?_
    rintro ⟨t, ht, ha⟩
    rw [h t ht] at ha
    cases ha
  | @step ts i b t l hi h ih =>
    rw [mem_cons, ih]
    obtain ⟨hlt, hget⟩ := List.getElem?_eq_some_iff.1 hi
    constructor
    · rintro (rfl | ⟨t', ht', ha⟩)
      · exact ⟨_, hget ▸ getElem_mem hlt, mem_cons_self⟩
      · obtain hmem | rfl := mem_or_eq_of_mem_set ht'
        · exact ⟨t', hmem, ha⟩
        · exact ⟨_, hget ▸ getElem_mem hlt, mem_cons_of_mem b ha⟩
    · rintro ⟨t', ht', ha⟩
      obtain ⟨j, hj, rfl⟩ := mem_iff_getElem.1 ht'
      obtain rfl | hne := eq_or_ne j i
      · rw [hget] at ha
        exact (mem_cons.1 ha).imp_right fun ha ↦ ⟨t, mem_set hlt t, ha⟩
      · refine .inr ⟨ts[j], ?_, ha⟩
        refine mem_iff_getElem.2 ⟨j, by rwa [length_set], ?_⟩
        exact getElem_set_ne hne.symm _

end Interleaving

variable {K V : Type*} [DecidableEq K]

/-- Write the values, one after another. -/
def writeAll (mem : K → V) (l : List (K × V)) : K → V :=
  l.foldl (fun mem w ↦ Function.update mem w.1 w.2) mem

/-- A place has the value that all writes to it have. -/
theorem writeAll_eq {mem : K → V} {l : List (K × V)} {k : K} {v : V} (hex : (k, v) ∈ l)
    (hall : ∀ w ∈ l, w.1 = k → w.2 = v) : writeAll mem l k = v := by
  induction l using List.reverseRecOn with
  | nil => cases hex
  | append_singleton l w ih =>
    rw [writeAll, List.foldl_append]
    show Function.update (writeAll mem l) w.1 w.2 k = v
    obtain rfl | hne := eq_or_ne k w.1
    · rw [Function.update_self]
      exact hall w (List.mem_append_right l List.mem_cons_self) rfl
    · rw [Function.update_of_ne hne]
      refine ih ?_ fun w' hw' ↦ hall w' (List.mem_append_left _ hw')
      obtain hmem | hmem := List.mem_append.1 hex
      · exact hmem
      · obtain rfl := List.mem_singleton.1 hmem
        exact (hne rfl).elim
