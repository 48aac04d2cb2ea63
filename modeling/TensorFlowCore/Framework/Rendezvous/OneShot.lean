import TensorFlowCore.Framework.Rendezvous.Delivery

/-!
# One-shot matching

Without `tolerate_dup_recv` a key of the rendezvous is used once: the first `Send` and the first
`RecvAsync` meet, in either order, and everything after them is turned away. `OneShot` collects
what that means in a state of the system, and `oneShot_of_run` proves it for every run.

A key goes through four states, and `KeyState` ties each to what the history and the calls say:
nothing has happened (`idle`), a receiver waits (`waiting`), a message is stored (`stored`), or the
two have met (`matched`). The table item found under the key *is* the state, so every branch of
`send` and `recvAsync` is one transition, and all other keys are framed by `KeyState.frame`.

`invocations` counts a call from the moment its client drops the lock: it is then certain to be
made, and `callDone` only moves it from `pending` into the history.
-/

namespace TensorFlowCore.Rendezvous

open GuardedRun List LocalRendezvousImpl Option

variable {τ : Type*} {key : ByteString} {status : Status} {K : Set ByteString}

/-- The calls a history records. -/
def calls (history : List (Event τ)) : List (Invocation τ) :=
  history.filterMap fun
    | .called inv => some inv
    | _ => none

/-- The calls of done callbacks that have been made, or whose client is past the lock and makes
them next. -/
def System.invocations (s : System τ) : List (Invocation τ) := s.pending ++ calls s.history

/-- A receiver was registered under `key` and no abort came before it. -/
def RecvBeforeAbort (history : List (Event τ)) (key : ByteString) : Prop :=
  ∃ done earlier, Event.recvAsync key done :: earlier <:+ history ∧
    ∀ status, Event.startAbort status ∉ earlier

/-- The call is an OK call of a receiver of `key`. -/
def OkCall (history : List (Event τ)) (key : ByteString) (inv : Invocation τ) : Prop :=
  inv.status = .ok ∧ Event.recvAsync key inv.done ∈ history

/-- Wherever a successful `Send` and a `RecvAsync` that no abort preceded share a key, a receiver of
the key is called with OK and the value sent. -/
def Matched (history : List (Event τ)) (invocations : List (Invocation τ)) : Prop :=
  ∀ key val isDead, Event.send key val isDead .ok ∈ history → RecvBeforeAbort history key →
    ∃ inv ∈ invocations, OkCall history key inv ∧ inv.value = val ∧ inv.isDead = isDead

/-- The promises of the rendezvous in one state, for `tolerate_dup_recv = false`. -/
structure OneShot [Inhabited τ] (s : System τ) : Prop where
  /-- Each done callback is called at most once. -/
  called_once : (s.invocations.map Invocation.done).Nodup
  /-- Per key, at most one callback is called with OK. -/
  ok_once : ∀ key, ∀ inv ∈ s.invocations, ∀ inv' ∈ s.invocations,
    OkCall s.history key inv → OkCall s.history key inv' → inv = inv'
  /-- A successful `Send` and a `RecvAsync` that no abort preceded have met. -/
  matched : Matched s.history s.invocations
  /-- A further `Send` or `RecvAsync` on such a key gets `Aborted` and changes nothing. -/
  further : ∀ key val isDead, Event.send key val isDead .ok ∈ s.history →
    RecvBeforeAbort s.history key → s.rendezvous.status = .ok →
      (∀ sendArgs val' isDead', s.rendezvous.send key sendArgs val' isDead' =
        (s.rendezvous, .aborted (ascii "Duplicated send: " ++ key), none)) ∧
      (∀ recvArgs done, s.rendezvous.recvAsync key recvArgs done =
        (s.rendezvous, some ⟨done, .aborted (ascii "Duplicated recv: " ++ key), {}, recvArgs,
          default, false⟩))
  /-- After an abort, every `Send` and `RecvAsync` fails with the abort status. -/
  aborted : s.rendezvous.status ≠ .ok → ∀ key,
    (∀ sendArgs val isDead, s.rendezvous.send key sendArgs val isDead =
      (s.rendezvous, s.rendezvous.status, none)) ∧
    (∀ recvArgs done, s.rendezvous.recvAsync key recvArgs done =
      (s.rendezvous, some ⟨done, s.rendezvous.status, {}, recvArgs, default, false⟩))

/-! ### The state of a key -/

/-- The state of `key`, read off the item found under it, against the history `H` and the calls
`I`. -/
inductive KeyState (H : List (Event τ)) (I : List (Invocation τ)) (key : ByteString) :
    Option (Item τ) → Prop
  | idle (hrecv : ∀ done, Event.recvAsync key done ∉ H)
      (hsend : ∀ val isDead, Event.send key val isDead .ok ∉ H) : KeyState H I key none
  | waiting {item : Item τ} (waiter : DoneCallback) (hw : item.waiter = some waiter)
      (hnot : item.hasBeenRecvd = false) (hrecv : Event.recvAsync key waiter ∈ H)
      (huncalled : ∀ inv ∈ I, inv.done ≠ waiter)
      (hsend : ∀ val isDead, Event.send key val isDead .ok ∉ H)
      (hok : ∀ inv ∈ I, ¬ OkCall H key inv)
      (hrest : ∀ done, Event.recvAsync key done ∈ H → done = waiter ∨ ∃ inv ∈ I, inv.done = done) :
      KeyState H I key (some item)
  | stored {item : Item τ} (hw : item.waiter = none) (hnot : item.hasBeenRecvd = false)
      (hsend : Event.send key item.value item.isDead .ok ∈ H)
      (hrecv : ∀ done, Event.recvAsync key done ∉ H) : KeyState H I key (some item)
  | matched {item : Item τ} (hw : item.waiter = none) (hrecvd : item.hasBeenRecvd = true)
      (hmet : ∃ inv ∈ I, OkCall H key inv ∧ Event.send key inv.value inv.isDead .ok ∈ H)
      (hrest : ∀ done, Event.recvAsync key done ∈ H → ∃ inv ∈ I, inv.done = done) :
      KeyState H I key (some item)

/-- An event is about `key` when it is a successful `Send` or a `RecvAsync` under it. -/
def Event.About (key : ByteString) : Event τ → Prop
  | .send key' _ _ status => key' = key ∧ status = .ok
  | .recvAsync key' _ => key' = key
  | _ => False

theorem mem_cons_recvAsync_iff {e : Event τ} (he : ¬ e.About key) {H : List (Event τ)}
    {done : DoneCallback} : Event.recvAsync key done ∈ e :: H ↔ Event.recvAsync key done ∈ H := by
  refine ⟨fun hmem ↦ ?_, mem_cons_of_mem _⟩
  rcases mem_cons.1 hmem with rfl | hmem
  · exact absurd rfl he
  · exact hmem

theorem mem_cons_send_iff {e : Event τ} (he : ¬ e.About key) {H : List (Event τ)} {val : τ}
    {isDead : Bool} :
    Event.send key val isDead .ok ∈ e :: H ↔ Event.send key val isDead .ok ∈ H := by
  refine ⟨fun hmem ↦ ?_, mem_cons_of_mem _⟩
  rcases mem_cons.1 hmem with rfl | hmem
  · exact absurd ⟨rfl, rfl⟩ he
  · exact hmem

/-- **Frame.** What happens under other keys leaves the state of `key` alone: the new event is not
about `key`, and the new calls are not calls of its receivers. -/
theorem KeyState.frame {H : List (Event τ)} {I I' : List (Invocation τ)} {o : Option (Item τ)}
    (h : KeyState H I key o) {e : Event τ} (he : ¬ e.About key) (hI : ∀ inv, inv ∈ I → inv ∈ I')
    (hnew : ∀ inv ∈ I', inv ∉ I → Event.recvAsync key inv.done ∉ H) :
    KeyState (e :: H) I' key o := by
  have hrecv := @mem_cons_recvAsync_iff _ _ _ he H
  have hsend := @mem_cons_send_iff _ _ _ he H
  cases h with
  | idle h₁ h₂ => exact .idle (fun d ↦ hrecv.not.2 (h₁ d)) fun v b ↦ hsend.not.2 (h₂ v b)
  | waiting w hw hnot h₁ h₂ h₃ h₄ h₅ =>
    refine .waiting w hw hnot (hrecv.2 h₁) (fun inv hinv hd ↦ ?_)
      (fun v b ↦ hsend.not.2 (h₃ v b)) (fun inv hinv hok ↦ ?_) fun d hd ↦ ?_
    · by_cases hold : inv ∈ I
      · exact h₂ inv hold hd
      · exact hnew inv hinv hold (hd ▸ h₁)
    · by_cases hold : inv ∈ I
      · exact h₄ inv hold ⟨hok.1, hrecv.1 hok.2⟩
      · exact hnew inv hinv hold (hrecv.1 hok.2)
    · exact (h₅ d (hrecv.1 hd)).imp_right fun ⟨inv, hinv, hd⟩ ↦ ⟨inv, hI inv hinv, hd⟩
  | stored hw hnot h₁ h₂ => exact .stored hw hnot (hsend.2 h₁) fun d ↦ hrecv.not.2 (h₂ d)
  | matched hw hrecvd h₁ h₂ =>
    obtain ⟨inv, hinv, hok, hs⟩ := h₁
    refine .matched hw hrecvd ⟨inv, hI inv hinv, ⟨hok.1, hrecv.2 hok.2⟩, hsend.2 hs⟩ fun d hd ↦ ?_
    obtain ⟨inv', hinv', hd'⟩ := h₂ d (hrecv.1 hd)
    exact ⟨inv', hI inv' hinv', hd'⟩

/-! ### The record of receives, sends and calls -/

/-- The history `H` and the calls `I` fit together, `n` being the next callback to be registered
and `K` the keys in use. This part does not look at the table. -/
structure CallLog (K : Set ByteString) (H : List (Event τ)) (I : List (Invocation τ))
    (n : DoneCallback) : Prop where
  recv_lt : ∀ {key done}, Event.recvAsync key done ∈ H → done < n
  recv_key : ∀ {key key' done}, Event.recvAsync key done ∈ H → Event.recvAsync key' done ∈ H →
    key = key'
  recv_mem : ∀ {key done}, Event.recvAsync key done ∈ H → key ∈ K
  send_mem : ∀ {key val isDead}, Event.send key val isDead .ok ∈ H → key ∈ K
  called_recv : ∀ inv ∈ I, ∃ key, Event.recvAsync key inv.done ∈ H
  nodup : (I.map Invocation.done).Nodup
  sent_once : ∀ {key val val' isDead isDead'}, Event.send key val isDead .ok ∈ H →
    Event.send key val' isDead' .ok ∈ H → val = val' ∧ isDead = isDead'
  ok_once : ∀ key, ∀ inv ∈ I, ∀ inv' ∈ I, OkCall H key inv → OkCall H key inv' → inv = inv'

namespace CallLog

variable {K : Set ByteString} {H : List (Event τ)} {I I' : List (Invocation τ)}
  {n : DoneCallback}

variable (h : CallLog K H I n)
include h

theorem called_lt {inv : Invocation τ} (hinv : inv ∈ I) : inv.done < n := by
  obtain ⟨key, hkey⟩ := h.called_recv inv hinv
  exact h.recv_lt hkey

/-- An event about no key, and the same calls in another order. -/
theorem quiet {e : Event τ} (he : ∀ key, ¬ e.About key) (hI : I'.Perm I) :
    CallLog K (e :: H) I' n where
  recv_lt hr := h.recv_lt ((mem_cons_recvAsync_iff (he _)).1 hr)
  recv_key hr hr' := h.recv_key ((mem_cons_recvAsync_iff (he _)).1 hr)
    ((mem_cons_recvAsync_iff (he _)).1 hr')
  recv_mem hr := h.recv_mem ((mem_cons_recvAsync_iff (he _)).1 hr)
  send_mem hs := h.send_mem ((mem_cons_send_iff (he _)).1 hs)
  called_recv inv hinv := by
    obtain ⟨key, hkey⟩ := h.called_recv inv (hI.mem_iff.1 hinv)
    exact ⟨key, mem_cons_of_mem _ hkey⟩
  nodup := (hI.map _).nodup_iff.2 h.nodup
  sent_once hs hs' :=
    h.sent_once ((mem_cons_send_iff (he _)).1 hs) ((mem_cons_send_iff (he _)).1 hs')
  ok_once key inv hinv inv' hinv' hok hok' :=
    h.ok_once key inv (hI.mem_iff.1 hinv) inv' (hI.mem_iff.1 hinv')
      ⟨hok.1, (mem_cons_recvAsync_iff (he _)).1 hok.2⟩
      ⟨hok'.1, (mem_cons_recvAsync_iff (he _)).1 hok'.2⟩

/-- The first successful `Send` under a key, with the call it makes if a receiver waits. -/
theorem send (hkey : key ∈ K) {val : τ} {isDead : Bool}
    (hfirst : ∀ val isDead, Event.send key val isDead .ok ∉ H) {call : Option (Invocation τ)}
    (hcall : ∀ inv ∈ call, Event.recvAsync key inv.done ∈ H ∧
      (∀ inv' ∈ I, inv'.done ≠ inv.done) ∧ ∀ inv' ∈ I, ¬ OkCall H key inv')
    (hI : I'.Perm (I ++ call.toList)) : CallLog K (.send key val isDead .ok :: H) I' n where
  recv_lt hr := h.recv_lt (by simpa using hr)
  recv_key hr hr' := h.recv_key (by simpa using hr) (by simpa using hr')
  recv_mem hr := h.recv_mem (by simpa using hr)
  send_mem hs := by
    rcases mem_cons.1 hs with heq | hs
    · obtain ⟨rfl, -⟩ := Event.send.inj heq
      exact hkey
    · exact h.send_mem hs
  called_recv inv hinv := by
    rcases mem_append.1 (hI.mem_iff.1 hinv) with hold | hnew
    · obtain ⟨key', hkey'⟩ := h.called_recv inv hold
      exact ⟨key', mem_cons_of_mem _ hkey'⟩
    · exact ⟨key, mem_cons_of_mem _ (hcall inv (mem_toList.1 hnew)).1⟩
  nodup := by
    refine (hI.map _).nodup_iff.2 ?_
    rw [map_append]
    refine Nodup.append h.nodup ?_ ?_
    · cases call <;> simp
    · intro d hd hd'
      obtain ⟨inv', hinv', rfl⟩ := mem_map.1 hd
      obtain ⟨inv, hinv, heq⟩ := mem_map.1 hd'
      exact (hcall inv (mem_toList.1 hinv)).2.1 inv' hinv' heq.symm
  sent_once hs hs' := by
    rcases mem_cons.1 hs with heq | hold <;> rcases mem_cons.1 hs' with heq' | hold'
    · obtain ⟨-, rfl, rfl, -⟩ := Event.send.inj heq
      obtain ⟨-, rfl, rfl, -⟩ := Event.send.inj heq'
      exact ⟨rfl, rfl⟩
    · obtain ⟨rfl, -⟩ := Event.send.inj heq
      exact absurd hold' (hfirst _ _)
    · obtain ⟨rfl, -⟩ := Event.send.inj heq'
      exact absurd hold (hfirst _ _)
    · exact h.sent_once hold hold'
  ok_once key' inv hinv inv' hinv' hok hok' := by
    have hback : ∀ {inv : Invocation τ}, OkCall (.send key val isDead .ok :: H) key' inv →
        OkCall H key' inv := fun h ↦ ⟨h.1, by simpa using h.2⟩
    -- A new call is a call of a receiver of `key`, which had no OK call before.
    have hclash : ∀ {inv inv' : Invocation τ}, inv ∈ call → inv' ∈ I → OkCall H key' inv →
        OkCall H key' inv' → False := fun hnew hold hok hok' ↦
      (hcall _ hnew).2.2 _ hold (h.recv_key (hcall _ hnew).1 hok.2 ▸ hok')
    rcases mem_append.1 (hI.mem_iff.1 hinv) with hold | hnew <;>
      rcases mem_append.1 (hI.mem_iff.1 hinv') with hold' | hnew'
    · exact h.ok_once key' inv hold inv' hold' (hback hok) (hback hok')
    · exact (hclash (mem_toList.1 hnew') hold (hback hok') (hback hok)).elim
    · exact (hclash (mem_toList.1 hnew) hold' (hback hok) (hback hok')).elim
    · rw [mem_toList] at hnew hnew'
      exact mem_unique hnew hnew'

/-- A new receiver under `key`, with the call it gets at once unless it waits. -/
theorem recvAsync (hkey : key ∈ K) {call : Option (Invocation τ)}
    (hcall : ∀ inv ∈ call, inv.done = n ∧
      (inv.status = .ok → ∀ inv' ∈ I, ¬ OkCall H key inv')) (hI : I'.Perm (I ++ call.toList)) :
    CallLog K (.recvAsync key n :: H) I' (n + 1) where
  recv_lt hr := by
    rcases mem_cons.1 hr with heq | hr
    · obtain ⟨-, rfl⟩ := Event.recvAsync.inj heq
      exact Nat.lt_succ_self _
    · exact (h.recv_lt hr).trans (Nat.lt_succ_self _)
  recv_key hr hr' := by
    rcases mem_cons.1 hr with heq | hr <;> rcases mem_cons.1 hr' with heq' | hr'
    · exact (Event.recvAsync.inj heq).1.trans (Event.recvAsync.inj heq').1.symm
    · exact absurd (h.recv_lt hr') ((Event.recvAsync.inj heq).2 ▸ lt_irrefl _)
    · exact absurd (h.recv_lt hr) ((Event.recvAsync.inj heq').2 ▸ lt_irrefl _)
    · exact h.recv_key hr hr'
  recv_mem hr := by
    rcases mem_cons.1 hr with heq | hr
    · exact (Event.recvAsync.inj heq).1 ▸ hkey
    · exact h.recv_mem hr
  send_mem hs := h.send_mem (by simpa using hs)
  called_recv inv hinv := by
    rcases mem_append.1 (hI.mem_iff.1 hinv) with hold | hnew
    · obtain ⟨key', hkey'⟩ := h.called_recv inv hold
      exact ⟨key', mem_cons_of_mem _ hkey'⟩
    · exact ⟨key, by simp [(hcall inv (mem_toList.1 hnew)).1]⟩
  nodup := by
    refine (hI.map _).nodup_iff.2 ?_
    rw [map_append]
    refine Nodup.append h.nodup ?_ ?_
    · cases call <;> simp
    · intro d hd hd'
      obtain ⟨inv', hinv', rfl⟩ := mem_map.1 hd
      obtain ⟨inv, hinv, heq⟩ := mem_map.1 hd'
      have hlt := h.called_lt hinv'
      rw [← heq, (hcall inv (mem_toList.1 hinv)).1] at hlt
      exact lt_irrefl _ hlt
  sent_once hs hs' := h.sent_once (by simpa using hs) (by simpa using hs')
  ok_once key' inv hinv inv' hinv' hok hok' := by
    -- An old call is not a call of the new receiver.
    have hback : ∀ {inv : Invocation τ}, inv ∈ I → OkCall (.recvAsync key n :: H) key' inv →
        OkCall H key' inv := by
      intro inv hold hok
      refine ⟨hok.1, ?_⟩
      rcases mem_cons.1 hok.2 with heq | hmem
      · exact absurd (h.called_lt hold) ((Event.recvAsync.inj heq).2 ▸ lt_irrefl _)
      · exact hmem
    have hclash : ∀ {inv inv' : Invocation τ}, inv ∈ call → inv' ∈ I →
        OkCall (.recvAsync key n :: H) key' inv → OkCall H key' inv' → False := by
      intro inv inv' hnew hold hok hok'
      refine (hcall inv hnew).2 hok.1 inv' hold ?_
      rcases mem_cons.1 hok.2 with heq | hmem
      · exact (Event.recvAsync.inj heq).1 ▸ hok'
      · exact absurd (h.recv_lt hmem) ((hcall inv hnew).1 ▸ lt_irrefl _)
    rcases mem_append.1 (hI.mem_iff.1 hinv) with hold | hnew <;>
      rcases mem_append.1 (hI.mem_iff.1 hinv') with hold' | hnew'
    · exact h.ok_once key' inv hold inv' hold' (hback hold hok) (hback hold' hok')
    · exact (hclash (mem_toList.1 hnew') hold hok' (hback hold hok)).elim
    · exact (hclash (mem_toList.1 hnew) hold' hok (hback hold' hok')).elim
    · rw [mem_toList] at hnew hnew'
      exact mem_unique hnew hnew'

/-- An abort: calls with the abort status for receivers that had none. -/
theorem abort {new : List (Invocation τ)}
    (hnew : ∀ inv ∈ new, inv.status ≠ .ok ∧ (∃ key, Event.recvAsync key inv.done ∈ H) ∧
      ∀ inv' ∈ I, inv'.done ≠ inv.done) (hnodup : (new.map Invocation.done).Nodup)
    (hI : I'.Perm (I ++ new)) : CallLog K (.startAbort status :: H) I' n where
  recv_lt hr := h.recv_lt (by simpa using hr)
  recv_key hr hr' := h.recv_key (by simpa using hr) (by simpa using hr')
  recv_mem hr := h.recv_mem (by simpa using hr)
  send_mem hs := h.send_mem (by simpa using hs)
  called_recv inv hinv := by
    rcases mem_append.1 (hI.mem_iff.1 hinv) with hold | hmem
    · obtain ⟨key, hkey⟩ := h.called_recv inv hold
      exact ⟨key, mem_cons_of_mem _ hkey⟩
    · obtain ⟨-, ⟨key, hkey⟩, -⟩ := hnew inv hmem
      exact ⟨key, mem_cons_of_mem _ hkey⟩
  nodup := by
    refine (hI.map _).nodup_iff.2 ?_
    rw [map_append]
    refine Nodup.append h.nodup hnodup fun d hd hd' ↦ ?_
    obtain ⟨inv', hinv', rfl⟩ := mem_map.1 hd
    obtain ⟨inv, hinv, heq⟩ := mem_map.1 hd'
    exact (hnew inv hinv).2.2 inv' hinv' heq.symm
  sent_once hs hs' := h.sent_once (by simpa using hs) (by simpa using hs')
  ok_once key inv hinv inv' hinv' hok hok' := by
    have hold : ∀ {inv}, inv ∈ I' → OkCall (.startAbort status :: H) key inv → inv ∈ I := by
      intro inv hmem hok
      rcases mem_append.1 (hI.mem_iff.1 hmem) with hold | hmem'
      · exact hold
      · exact absurd hok.1 (hnew inv hmem').1
    exact h.ok_once key inv (hold hinv hok) inv' (hold hinv' hok')
      ⟨hok.1, by simpa using hok.2⟩ ⟨hok'.1, by simpa using hok'.2⟩

end CallLog

/-! ### The invariant of a run -/

/-- The invariant of the system without `tolerate_dup_recv`. While no abort has come, the table says
which state each key is in; from the abort on, what had been matched stays so and no receiver is
left without a call. -/
structure OneShotInv (K : Set ByteString) (s : System τ) : Prop where
  tol : s.rendezvous.tolerateDupRecv = false
  log : CallLog K s.history s.invocations s.nextDone
  entries : ∀ h item, s.rendezvous.table.lookup h = some item → ∃ key ∈ K, keyHash key = h
  live : s.rendezvous.status = .ok → ∀ key ∈ K,
    KeyState s.history s.invocations key (s.rendezvous.table.lookup (keyHash key))
  unaborted : s.rendezvous.status = .ok → ∀ status, Event.startAbort status ∉ s.history
  abortSeen : s.rendezvous.status ≠ .ok → ∃ status, Event.startAbort status ∈ s.history
  frozen : s.rendezvous.status ≠ .ok → Matched s.history s.invocations
  answered : s.rendezvous.status ≠ .ok → ∀ key done, Event.recvAsync key done ∈ s.history →
    ∃ inv ∈ s.invocations, inv.done = done

theorem oneShotInv_init (K : Set ByteString) : OneShotInv K (System.init false : System τ) where
  tol := rfl
  log := by constructor <;> simp [System.init, System.invocations, calls]
  entries h item hl := by simp [System.init, LocalRendezvousImpl.init] at hl
  live _ key _ := by
    simp only [System.init, LocalRendezvousImpl.init, AList.lookup_empty]
    exact .idle (by simp) (by simp)
  unaborted _ := by simp [System.init]
  abortSeen h := absurd rfl h
  frozen h := absurd rfl h
  answered h := absurd rfl h

section Table

variable {K : Set ByteString} {s : System τ}

variable (hinv : OneShotInv K s)
include hinv

/-- An item with a waiter is the item of a key whose receiver waits. -/
theorem OneShotInv.waiter_of_lookup (hst : s.rendezvous.status = .ok) {h : UInt64} {item : Item τ}
    {waiter : DoneCallback} (hl : s.rendezvous.table.lookup h = some item)
    (hw : item.waiter = some waiter) :
    ∃ key ∈ K, keyHash key = h ∧ Event.recvAsync key waiter ∈ s.history ∧
      ∀ inv ∈ s.invocations, inv.done ≠ waiter := by
  obtain ⟨key, hkey, rfl⟩ := hinv.entries h item hl
  have hstate := hinv.live hst key hkey
  rw [hl] at hstate
  cases hstate with
  | stored hw' => cases hw.symm.trans hw'
  | matched hw' => cases hw.symm.trans hw'
  | waiting w hw' _ hrecv huncalled =>
    obtain rfl : waiter = w := some.inj (hw.symm.trans hw')
    exact ⟨key, hkey, rfl, hrecv, huncalled⟩

/-- No receiver is lost: it has a call, or it waits in the table. -/
theorem OneShotInv.answered_or_waiting (hst : s.rendezvous.status = .ok) {done : DoneCallback}
    (hrecv : Event.recvAsync key done ∈ s.history) : (∃ inv ∈ s.invocations, inv.done = done) ∨
      ∃ item, s.rendezvous.table.lookup (keyHash key) = some item ∧ item.waiter = some done := by
  have hstate := hinv.live hst key (hinv.log.recv_mem hrecv)
  rcases hl : s.rendezvous.table.lookup (keyHash key) with - | item <;> rw [hl] at hstate
  · cases hstate with
    | idle h₁ _ => exact absurd hrecv (h₁ _)
  · cases hstate with
    | stored _ _ _ h₁ => exact absurd hrecv (h₁ _)
    | matched _ _ _ hrest => exact Or.inl (hrest done hrecv)
    | waiting w hw _ _ _ _ _ hrest =>
      rcases hrest done hrecv with rfl | hcalled
      · exact Or.inr ⟨item, rfl, hw⟩
      · exact Or.inl hcalled

/-- The calls that an abort makes carry its status and go to receivers without a call. -/
theorem OneShotInv.abortCalls [Inhabited τ] (hst : s.rendezvous.status = .ok)
    (hstatus : status ≠ .ok) :
    ∀ inv ∈ s.rendezvous.table.entries.filterMap fun entry ↦ abortInvocation status entry.2,
      inv.status ≠ .ok ∧ (∃ key, Event.recvAsync key inv.done ∈ s.history) ∧
        ∀ inv' ∈ s.invocations, inv'.done ≠ inv.done := by
  intro inv hmem
  obtain ⟨⟨h, item⟩, hentry, heq⟩ := mem_filterMap.1 hmem
  obtain ⟨w, hw, rfl⟩ := map_eq_some_iff.1 heq
  obtain ⟨key, -, -, hrecv, huncalled⟩ :=
    hinv.waiter_of_lookup hst (AList.mem_lookup_iff.2 hentry) hw
  exact ⟨hstatus, ⟨key, hrecv⟩, huncalled⟩

/-- Two items do not share a waiter, so an abort calls no callback twice. -/
theorem OneShotInv.abortCalls_nodup [Inhabited τ] (hst : s.rendezvous.status = .ok) :
    ((s.rendezvous.table.entries.filterMap fun entry ↦
      abortInvocation status entry.2).map Invocation.done).Nodup := by
  rw [Nodup, pairwise_map, pairwise_filterMap]
  refine (nodupKeys_iff_pairwise.1 s.rendezvous.table.nodupKeys).imp_of_mem ?_
  rintro ⟨h, item⟩ ⟨h', item'⟩ hmem hmem' hne inv heq inv' heq' hdone
  obtain ⟨w, hw, rfl⟩ := map_eq_some_iff.1 heq
  obtain ⟨w', hw', rfl⟩ := map_eq_some_iff.1 heq'
  obtain ⟨key, -, hh, hrecv, -⟩ := hinv.waiter_of_lookup hst (AList.mem_lookup_iff.2 hmem) hw
  obtain ⟨key', -, hh', hrecv', -⟩ := hinv.waiter_of_lookup hst (AList.mem_lookup_iff.2 hmem') hw'
  obtain rfl : w = w' := hdone
  exact hne (hh ▸ hh' ▸ congrArg keyHash (hinv.log.recv_key hrecv hrecv'))

end Table

/-- While the rendezvous is not aborted, `KeyState` already says that send and receive have met. -/
theorem matched_of_live {s : System τ} (hinv : OneShotInv K s) (hst : s.rendezvous.status = .ok)
    {val : τ} {isDead : Bool} (hsend : Event.send key val isDead .ok ∈ s.history)
    {done : DoneCallback} (hrecv : Event.recvAsync key done ∈ s.history) :
    (∃ item, s.rendezvous.table.lookup (keyHash key) = some item ∧ item.waiter = none ∧
      item.hasBeenRecvd = true) ∧
    ∃ inv ∈ s.invocations, OkCall s.history key inv ∧ inv.value = val ∧ inv.isDead = isDead := by
  have hstate := hinv.live hst key (hinv.log.recv_mem hrecv)
  rcases hl : s.rendezvous.table.lookup (keyHash key) with - | item
  · rw [hl] at hstate
    cases hstate with
    | idle h₁ _ => exact absurd hrecv (h₁ _)
  · rw [hl] at hstate
    cases hstate with
    | waiting w hw hnot h₁ h₂ h₃ h₄ h₅ => exact absurd hsend (h₃ _ _)
    | stored hw hnot h₁ h₂ => exact absurd hrecv (h₂ _)
    | matched hw hrecvd h₁ h₂ =>
      obtain ⟨inv, hmem, hok, hs⟩ := h₁
      obtain ⟨rfl, rfl⟩ := hinv.log.sent_once hsend hs
      exact ⟨⟨item, rfl, hw, hrecvd⟩, inv, hmem, hok, rfl, rfl⟩

theorem RecvBeforeAbort.mem {H : List (Event τ)} (h : RecvBeforeAbort H key) :
    ∃ done, Event.recvAsync key done ∈ H := by
  obtain ⟨done, earlier, hsuf, -⟩ := h
  exact ⟨done, hsuf.subset mem_cons_self⟩

/-- After an abort, nothing new comes before it. -/
theorem RecvBeforeAbort.of_cons {H : List (Event τ)} {e : Event τ}
    (h : RecvBeforeAbort (e :: H) key) (habort : ∃ status, Event.startAbort status ∈ H) :
    RecvBeforeAbort H key := by
  obtain ⟨done, earlier, hsuf, hno⟩ := h
  rcases suffix_cons_iff.1 hsuf with heq | hsuf'
  · obtain ⟨status, hmem⟩ := habort
    obtain ⟨-, rfl⟩ := cons.inj heq
    exact absurd hmem (hno status)
  · exact ⟨done, earlier, hsuf', hno⟩

theorem RecvBeforeAbort.of_cons_abort {H : List (Event τ)}
    (h : RecvBeforeAbort (.startAbort status :: H) key) : RecvBeforeAbort H key := by
  obtain ⟨done, earlier, hsuf, hno⟩ := h
  rcases suffix_cons_iff.1 hsuf with heq | hsuf'
  · cases (cons.inj heq).1
  · exact ⟨done, earlier, hsuf', hno⟩

theorem Matched.cons {H : List (Event τ)} {I I' : List (Invocation τ)} {e : Event τ}
    (h : Matched H I) (hsend : ∀ key val isDead, Event.send key val isDead .ok ∈ e :: H →
      Event.send key val isDead .ok ∈ H)
    (hrecv : ∀ key, RecvBeforeAbort (e :: H) key → RecvBeforeAbort H key)
    (hI : ∀ inv ∈ I, inv ∈ I') : Matched (e :: H) I' := by
  intro key val isDead hs hr
  obtain ⟨inv, hmem, hok, hval, hdead⟩ := h key val isDead (hsend _ _ _ hs) (hrecv key hr)
  exact ⟨inv, hI inv hmem, ⟨hok.1, mem_cons_of_mem _ hok.2⟩, hval, hdead⟩

theorem oneShot_of_inv [Inhabited τ] {s : System τ} (hinv : OneShotInv K s) : OneShot s where
  called_once := hinv.log.nodup
  ok_once := hinv.log.ok_once
  matched := by
    by_cases hst : s.rendezvous.status = .ok
    · intro key val isDead hsend hrecv
      obtain ⟨done, hmem⟩ := hrecv.mem
      exact (matched_of_live hinv hst hsend hmem).2
    · exact hinv.frozen hst
  further key val isDead hsend hrecv hst := by
    obtain ⟨done, hmem⟩ := hrecv.mem
    obtain ⟨⟨item, hl, hw, hrecvd⟩, -⟩ := matched_of_live hinv hst hsend hmem
    refine ⟨fun sendArgs val' isDead' ↦ ?_, fun recvArgs done' ↦ ?_⟩
    · simp [send, hst, hl, hw]
    · simp [recvAsync, hst, hl, hrecvd, hinv.tol]
  aborted hst key := ⟨fun sendArgs val isDead ↦ by simp [send, hst],
    fun recvArgs done ↦ by simp [recvAsync, hst]⟩

/-! ### One step -/

/-- Calls that leave the lock join the calls there were. -/
theorem invocations_perm_append {s s' : System τ} {new : List (Invocation τ)}
    (hp : s'.pending = s.pending ++ new) (hh : calls s'.history = calls s.history) :
    s'.invocations.Perm (s.invocations ++ new) := by
  rw [System.invocations, System.invocations, hp, hh, append_assoc, append_assoc]
  exact Perm.append_left _ perm_append_comm

section Step

variable {K : Set ByteString} {s s' : System τ}

/-- A step that leaves the rendezvous alone and records an event about no key. -/
theorem OneShotInv.quiet (hinv : OneShotInv K s) {e : Event τ} (hr : s'.rendezvous = s.rendezvous)
    (hn : s'.nextDone = s.nextDone) (hh : s'.history = e :: s.history) (he : ∀ key, ¬ e.About key)
    (hab : s.rendezvous.status = .ok → ∀ status, e ≠ .startAbort status)
    (hI : s'.invocations.Perm s.invocations) : OneShotInv K s' where
  tol := hr ▸ hinv.tol
  log := by
    rw [hh, hn]
    exact hinv.log.quiet he hI
  entries := hr ▸ hinv.entries
  live hst key hkey := by
    rw [hr] at hst
    rw [hr, hh]
    exact (hinv.live hst key hkey).frame (he key) (fun _ ↦ hI.mem_iff.2)
      fun inv hmem hnot ↦ absurd (hI.mem_iff.1 hmem) hnot
  unaborted hst status hmem := by
    rw [hr] at hst
    rcases mem_cons.1 (hh ▸ hmem) with heq | hold
    · exact hab hst status heq.symm
    · exact hinv.unaborted hst status hold
  abortSeen hst := by
    rw [hr] at hst
    obtain ⟨status, hmem⟩ := hinv.abortSeen hst
    exact ⟨status, hh ▸ mem_cons_of_mem _ hmem⟩
  frozen hst := by
    rw [hr] at hst
    rw [hh]
    exact (hinv.frozen hst).cons (fun _ _ _ ↦ (mem_cons_send_iff (he _)).1)
      (fun _ h ↦ h.of_cons (hinv.abortSeen hst)) fun _ ↦ hI.mem_iff.2
  answered hst key done hmem := by
    rw [hr] at hst
    rw [hh, mem_cons_recvAsync_iff (he _)] at hmem
    obtain ⟨inv, hinvm, hd⟩ := hinv.answered hst key done hmem
    exact ⟨inv, hI.mem_iff.2 hinvm, hd⟩

/-- A transition of one key, `key`, while no abort has come: the other keys are framed. -/
theorem OneShotInv.act (hinv : OneShotInv K s) (hK : Set.InjOn keyHash K)
    (hst : s.rendezvous.status = .ok) (hkey : key ∈ K) {e : Event τ} {new : List (Invocation τ)}
    (hst' : s'.rendezvous.status = .ok)
    (htol : s'.rendezvous.tolerateDupRecv = s.rendezvous.tolerateDupRecv)
    (hh : s'.history = e :: s.history) (hne : ∀ status, e ≠ .startAbort status)
    (habout : ∀ key', e.About key' → key' = key) (hlook : ∀ h, h ≠ keyHash key →
      s'.rendezvous.table.lookup h = s.rendezvous.table.lookup h)
    (hI : s'.invocations.Perm (s.invocations ++ new))
    (hnew : ∀ inv ∈ new, Event.recvAsync key inv.done ∈ s'.history)
    (hlog : CallLog K s'.history s'.invocations s'.nextDone)
    (hstate : KeyState s'.history s'.invocations key
      (s'.rendezvous.table.lookup (keyHash key))) : OneShotInv K s' where
  tol := htol ▸ hinv.tol
  log := hlog
  entries h item hl := by
    by_cases hh' : h = keyHash key
    · exact ⟨key, hkey, hh'.symm⟩
    · exact hinv.entries h item (hlook h hh' ▸ hl)
  live _ key' hkey' := by
    by_cases heq : key' = key
    · exact heq ▸ hstate
    · rw [hlook _ fun h ↦ heq (hK hkey' hkey h), hh]
      refine (hinv.live hst key' hkey').frame (fun h ↦ heq (habout key' h))
        (fun inv hmem ↦ hI.mem_iff.2 (mem_append_left _ hmem)) fun inv hmem hnot hrecv ↦ ?_
      -- A new call is a call of a receiver of `key`, and a callback has one key only.
      rcases mem_append.1 (hI.mem_iff.1 hmem) with hold | hnew'
      · exact hnot hold
      · exact heq (hlog.recv_key (hh ▸ mem_cons_of_mem _ hrecv) (hnew inv hnew'))
  unaborted _ status hmem := by
    rcases mem_cons.1 (hh ▸ hmem) with heq | hold
    · exact hne status heq.symm
    · exact hinv.unaborted hst status hold
  abortSeen h := absurd hst' h
  frozen h := absurd hst' h
  answered h := absurd hst' h

/-- A second send of a key is refused, so no delivered value is replaced. -/
theorem oneShotInv_send [Inhabited τ] (hinv : OneShotInv K s) (hK : Set.InjOn keyHash K)
    (hkey : key ∈ K) {sendArgs : Args} {val : τ} {isDead : Bool}
    (hstep : s.step (.send key sendArgs val isDead) = some s') : OneShotInv K s' := by
  have hI : s'.invocations.Perm
      (s.invocations ++ (s.rendezvous.send key sendArgs val isDead).2.2.toList) := by
    rcases hsend : s.rendezvous.send key sendArgs val isDead with ⟨r, status, waiter⟩
    obtain rfl := some.inj ((System.step_send hsend).symm.trans hstep)
    exact invocations_perm_append rfl rfl
  rcases send_cases s.rendezvous key sendArgs val isDead with
    ⟨hst, h⟩ | ⟨hst, hl, h⟩ | ⟨hst, item, hl, hw, h⟩ | ⟨hst, item, waiter, hl, hw, h⟩ <;>
    rw [h] at hI <;>
    obtain rfl := some.inj ((System.step_send h).symm.trans hstep)
  · exact hinv.quiet rfl rfl rfl (fun _ hab ↦ hst hab.2) (fun h ↦ absurd h hst) (by simpa using hI)
  · have hidle := hinv.live hst key hkey
    rw [hl] at hidle
    obtain ⟨hrecv, hsend⟩ : (∀ done, Event.recvAsync key done ∉ s.history) ∧
        ∀ val isDead, Event.send key val isDead .ok ∉ s.history := by
      cases hidle with
      | idle h₁ h₂ => exact ⟨h₁, h₂⟩
    refine hinv.act hK hst hkey hst rfl rfl (by simp) (fun _ h ↦ h.1.symm)
      (fun _ hne ↦ AList.lookup_insert_ne hne) hI (by simp)
      (hinv.log.send hkey hsend (by simp) hI) ?_
    simp only [AList.lookup_insert]
    exact .stored rfl rfl mem_cons_self fun done ↦ by simpa using hrecv done
  · exact hinv.quiet rfl rfl rfl (fun _ hab ↦ Status.aborted_ne_ok _ hab.2) (by simp)
      (by simpa using hI)
  · have hwait := hinv.live hst key hkey
    rw [hl] at hwait
    cases hwait with
    | stored hw' => cases hw.symm.trans hw'
    | matched hw' => cases hw.symm.trans hw'
    | waiting w hw' hnot hrecv huncalled hsend hok hrest =>
      obtain rfl : waiter = w := some.inj (hw.symm.trans hw')
      refine hinv.act hK hst hkey hst rfl rfl (by simp) (fun _ h ↦ h.1.symm)
        (fun _ hne ↦ AList.lookup_insert_ne hne) hI ?_ (hinv.log.send hkey hsend ?_ hI) ?_
      · simpa using hrecv
      · rintro inv hmem
        obtain rfl : _ = inv := some.inj hmem
        exact ⟨hrecv, huncalled, hok⟩
      · -- The waiter's call is the OK call that the matched state asks for.
        have hcall := hI.mem_iff.2 (mem_append_right s.invocations mem_cons_self)
        simp only [AList.lookup_insert]
        refine .matched (by simp [completedItem, hinv.tol]) (by simp [completedItem, hinv.tol])
          ⟨_, hcall, ⟨rfl, mem_cons_of_mem _ hrecv⟩, mem_cons_self⟩ fun done hmem ↦ ?_
        rcases hrest done (by simpa using hmem) with rfl | ⟨inv, hinvm, hd⟩
        · exact ⟨_, hcall, rfl⟩
        · exact ⟨inv, hI.mem_iff.2 (mem_append_left _ hinvm), hd⟩

/-- A receiver that is turned away leaves the state of its key as it was. -/
theorem OneShotInv.keyState_rejected (hinv : OneShotInv K s) (hst : s.rendezvous.status = .ok)
    (hkey : key ∈ K) {item : Item τ} (hl : s.rendezvous.table.lookup (keyHash key) = some item)
    (hbusy : item.hasBeenRecvd = true ∨ item.waiter ≠ none) {I' : List (Invocation τ)}
    {sendArgs recvArgs : Args} {val : τ} {isDead : Bool} (hI : I'.Perm (s.invocations ++
      (some ⟨s.nextDone, status, sendArgs, recvArgs, val, isDead⟩ : Option _).toList))
    (hstatus : status ≠ .ok) :
    KeyState (.recvAsync key s.nextDone :: s.history) I' key (some item) := by
  have hold_or : ∀ {inv}, inv ∈ I' → inv ∈ s.invocations ∨
      inv = ⟨s.nextDone, status, sendArgs, recvArgs, val, isDead⟩ := fun hmem ↦ by
    simpa using hI.mem_iff.1 hmem
  have hold : ∀ {inv}, inv ∈ s.invocations → inv ∈ I' := fun hmem ↦
    hI.mem_iff.2 (mem_append_left _ hmem)
  have hcall : ⟨s.nextDone, status, sendArgs, recvArgs, val, isDead⟩ ∈ I' :=
    hI.mem_iff.2 (mem_append_right _ mem_cons_self)
  have hstate := hinv.live hst key hkey
  rw [hl] at hstate
  cases hstate with
  | stored hw hnot => simp [hw, hnot] at hbusy
  | waiting w hw hnot hrecv huncalled hsend hok hrest =>
    refine .waiting w hw hnot (mem_cons_of_mem _ hrecv) (fun inv hmem hd ↦ ?_)
      (fun v b ↦ by simpa using hsend v b) (fun inv hmem hok' ↦ ?_) fun done hmem ↦ ?_
    · rcases hold_or hmem with hmem | rfl
      · exact huncalled inv hmem hd
      · exact absurd (hinv.log.recv_lt hrecv) (hd ▸ lt_irrefl _)
    · rcases hold_or hmem with hmem | rfl
      · refine hok inv hmem ⟨hok'.1, ?_⟩
        rcases mem_cons.1 hok'.2 with heq | hmem'
        · exact absurd (hinv.log.called_lt hmem) ((Event.recvAsync.inj heq).2 ▸ lt_irrefl _)
        · exact hmem'
      · exact hstatus hok'.1
    · rcases mem_cons.1 hmem with heq | hmem
      · exact Or.inr ⟨_, hcall, (Event.recvAsync.inj heq).2.symm⟩
      · exact (hrest done hmem).imp_right fun ⟨inv, hinvm, hd⟩ ↦ ⟨inv, hold hinvm, hd⟩
  | matched hw hrecvd hmet hrest =>
    obtain ⟨inv, hinvm, hok, hsend⟩ := hmet
    refine .matched hw hrecvd ⟨inv, hold hinvm, ⟨hok.1, mem_cons_of_mem _ hok.2⟩,
      mem_cons_of_mem _ hsend⟩ fun done hmem ↦ ?_
    rcases mem_cons.1 hmem with heq | hmem
    · exact ⟨_, hcall, (Event.recvAsync.inj heq).2.symm⟩
    · obtain ⟨inv', hinv', hd⟩ := hrest done hmem
      exact ⟨inv', hold hinv', hd⟩

variable [Inhabited τ]

/-- A second receive of a key is called back with an error, and the first one stays. -/
theorem oneShotInv_recvAsync (hinv : OneShotInv K s) (hK : Set.InjOn keyHash K) (hkey : key ∈ K)
    {recvArgs : Args} (hstep : s.step (.recvAsync key recvArgs) = some s') : OneShotInv K s' := by
  have hI : s'.invocations.Perm
      (s.invocations ++ (s.rendezvous.recvAsync key recvArgs s.nextDone).2.toList) := by
    rcases hrecv : s.rendezvous.recvAsync key recvArgs s.nextDone with ⟨r, call⟩
    obtain rfl := some.inj ((System.step_recvAsync hrecv).symm.trans hstep)
    exact invocations_perm_append rfl rfl
  have hself : Event.recvAsync key s.nextDone ∈ Event.recvAsync key s.nextDone :: s.history :=
    mem_cons_self
  have habout : ∀ key', (Event.recvAsync key s.nextDone : Event τ).About key' → key' = key :=
    fun _ h ↦ h.symm
  -- Receivers of `key` afterwards are those before and the new one.
  have hrecv_cases : ∀ {done}, Event.recvAsync key done ∈
      Event.recvAsync key s.nextDone :: s.history →
        done = s.nextDone ∨ Event.recvAsync key done ∈ s.history := fun hmem ↦
    (mem_cons.1 hmem).imp_left fun h ↦ (Event.recvAsync.inj h).2
  rcases recvAsync_cases s.rendezvous key recvArgs s.nextDone with
    ⟨hst, h⟩ | ⟨hst, htol, ⟨item, hl, hbusy⟩, h⟩ | ⟨hst, item, hl, hread, h⟩ | ⟨hst, hl, h⟩ <;>
    rw [h] at hI <;>
    obtain rfl := some.inj ((System.step_recvAsync h).symm.trans hstep)
  · exact
      { tol := hinv.tol
        log := hinv.log.recvAsync hkey (fun inv hmem ↦ by
          obtain rfl : _ = inv := some.inj hmem
          exact ⟨rfl, fun hok ↦ absurd hok hst⟩) hI
        entries := hinv.entries
        live := fun h ↦ absurd h hst
        unaborted := fun h ↦ absurd h hst
        abortSeen := fun _ ↦ by
          obtain ⟨status, hmem⟩ := hinv.abortSeen hst
          exact ⟨status, mem_cons_of_mem _ hmem⟩
        frozen := fun _ ↦ (hinv.frozen hst).cons (fun _ _ _ hs ↦ by simpa using hs)
          (fun _ h ↦ h.of_cons (hinv.abortSeen hst))
          fun inv hmem ↦ hI.mem_iff.2 (mem_append_left _ hmem)
        answered := fun _ key' done hmem ↦ by
          rcases mem_cons.1 hmem with heq | hold
          · obtain ⟨-, rfl⟩ := Event.recvAsync.inj heq
            exact ⟨_, hI.mem_iff.2 (mem_append_right _ mem_cons_self), rfl⟩
          · obtain ⟨inv, hinvm, hd⟩ := hinv.answered hst key' done hold
            exact ⟨inv, hI.mem_iff.2 (mem_append_left _ hinvm), hd⟩ }
  · refine hinv.act hK hst hkey hst rfl rfl (by simp) habout (fun _ _ ↦ rfl) hI (by simp)
      (hinv.log.recvAsync hkey (fun inv hmem ↦ ?_) hI) ?_
    · obtain rfl : _ = inv := some.inj hmem
      exact ⟨rfl, fun hok ↦ absurd hok (Status.aborted_ne_ok _)⟩
    · simp only [hl]
      exact hinv.keyState_rejected hst hkey hl hbusy hI (Status.aborted_ne_ok _)
  · -- Without `tolerate_dup_recv` only a stored message is read.
    obtain ⟨hnot, hw⟩ : item.hasBeenRecvd = false ∧ item.waiter = none := by
      simpa [hinv.tol] using hread
    have hstored := hinv.live hst key hkey
    rw [hl] at hstored
    cases hstored with
    | waiting w hw' => cases hw.symm.trans hw'
    | matched _ hrecvd => cases hnot.symm.trans hrecvd
    | stored _ _ hsend hrecv =>
      have hcall := hI.mem_iff.2 (mem_append_right s.invocations mem_cons_self)
      refine hinv.act hK hst hkey hst rfl rfl (by simp) habout
        (fun _ hne ↦ AList.lookup_insert_ne hne) hI (by simp)
        (hinv.log.recvAsync hkey (fun inv hmem ↦ ?_) hI) ?_
      · obtain rfl : _ = inv := some.inj hmem
        exact ⟨rfl, fun _ inv' _ hok ↦ hrecv _ hok.2⟩
      · simp only [AList.lookup_insert]
        refine .matched (by simpa [consumedItem] using hw) rfl
          ⟨_, hcall, ⟨rfl, hself⟩, mem_cons_of_mem _ hsend⟩ fun done hmem ↦ ?_
        rcases hrecv_cases hmem with rfl | hold
        · exact ⟨_, hcall, rfl⟩
        · exact absurd hold (hrecv done)
  · have hidle := hinv.live hst key hkey
    rw [hl] at hidle
    cases hidle with
    | idle hrecv hsend =>
      refine hinv.act hK hst hkey hst rfl rfl (by simp) habout
        (fun _ hne ↦ AList.lookup_insert_ne hne) hI (by simp)
        (hinv.log.recvAsync hkey (by simp) hI) ?_
      simp only [AList.lookup_insert]
      have hIold : ∀ {inv}, inv ∈ System.invocations _ → inv ∈ s.invocations := fun hmem ↦ by
        simpa using hI.mem_iff.1 hmem
      refine .waiting s.nextDone rfl rfl hself (fun inv hmem hd ↦ ?_)
        (fun val isDead ↦ by simpa using hsend val isDead) (fun inv hmem hok ↦ ?_) fun done
        hmem ↦ ?_
      · exact absurd (hinv.log.called_lt (hIold hmem)) (hd ▸ lt_irrefl _)
      · rcases hrecv_cases hok.2 with hd | hold
        · exact absurd (hinv.log.called_lt (hIold hmem)) (hd ▸ lt_irrefl _)
        · exact hrecv _ hold
      · exact (hrecv_cases hmem).imp_right fun hold ↦ absurd hold (hrecv done)

/-- An abort takes all waiting receives out of the table; each is called back once. -/
theorem oneShotInv_startAbort (hinv : OneShotInv K s)
    (hstep : s.step (.startAbort status) = some s') : OneShotInv K s' := by
  obtain ⟨hstatus, hs'⟩ := System.step_startAbort hstep
  have hI : s'.invocations.Perm (s.invocations ++ (s.rendezvous.startAbort status).2) :=
    invocations_perm_append (by rw [hs']) (by rw [hs']; rfl)
  subst hs'
  by_cases hst : s.rendezvous.status = .ok
  · have hcalls : (s.rendezvous.startAbort status).2 = s.rendezvous.table.entries.filterMap
        fun entry ↦ abortInvocation status entry.2 := by
      simp [startAbort, hst]
    have hold : ∀ {inv}, inv ∈ s.invocations → inv ∈ System.invocations _ := fun hmem ↦
      hI.mem_iff.2 (mem_append_left _ hmem)
    have hst' : (s.rendezvous.startAbort status).1.status ≠ .ok := by
      simpa [startAbort, hst] using hstatus
    exact
      { tol := by simpa [startAbort, hst] using hinv.tol
        log := hinv.log.abort (hcalls ▸ hinv.abortCalls hst hstatus)
          (hcalls ▸ hinv.abortCalls_nodup hst) hI
        entries := fun h item hl ↦ by simp [startAbort, hst] at hl
        live := fun h ↦ absurd h hst'
        unaborted := fun h ↦ absurd h hst'
        abortSeen := fun _ ↦ ⟨status, mem_cons_self⟩
        frozen := fun _ ↦ by
          have hmatched : Matched s.history s.invocations := fun key val isDead hs hr ↦ by
            obtain ⟨done, hmem⟩ := hr.mem
            exact (matched_of_live hinv hst hs hmem).2
          exact hmatched.cons (fun _ _ _ hs ↦ by simpa using hs)
            (fun _ h ↦ h.of_cons_abort) fun _ ↦ hold
        answered := fun _ key done hmem ↦ by
          have hmem' : Event.recvAsync key done ∈ s.history := by simpa using hmem
          rcases hinv.answered_or_waiting hst hmem' with ⟨inv, hinvm, hd⟩ | ⟨item, hl, hw⟩
          · exact ⟨inv, hold hinvm, hd⟩
          · refine ⟨⟨done, status, {}, {}, default, false⟩,
              hI.mem_iff.2 (mem_append_right _ ?_), rfl⟩
            rw [hcalls]
            exact mem_filterMap.2
              ⟨_, AList.mem_lookup_iff.1 hl, by simp [abortInvocation, hw]⟩ }
  · refine hinv.quiet (by simp [startAbort, hst]) rfl rfl (fun _ hab ↦ hab)
      (fun h ↦ absurd h hst) ?_
    simp [startAbort, hst, System.invocations, calls]

omit [Inhabited τ] in
/-- Running a callback moves its call from the pending ones to the made ones. -/
theorem invocations_perm_of_callDone [Inhabited τ] {i : ℕ}
    (hstep : s.step (.callDone i) = some s') : s'.invocations.Perm s.invocations := by
  obtain ⟨inv, hi, rfl⟩ := System.step_callDone hstep
  obtain ⟨hlt, rfl⟩ := List.getElem?_eq_some_iff.1 hi
  have hperm : (s.pending[i] :: s.pending.eraseIdx i).Perm s.pending := by
    have hsplit := take_append_drop i s.pending
    rw [drop_eq_getElem_cons hlt] at hsplit
    rw [eraseIdx_eq_take_drop_succ]
    exact perm_middle.symm.trans (Perm.of_eq hsplit)
  exact perm_middle.trans (hperm.append_right (calls s.history))

theorem oneShotInv_callDone (hinv : OneShotInv K s) {i : ℕ}
    (hstep : s.step (.callDone i) = some s') : OneShotInv K s' := by
  have hI := invocations_perm_of_callDone hstep
  obtain ⟨inv, hi, rfl⟩ := System.step_callDone hstep
  exact hinv.quiet rfl rfl rfl (fun _ hab ↦ hab) (by simp) hI

theorem oneShotInv_step (hinv : OneShotInv K s) (hK : Set.InjOn keyHash K) {a : Action τ}
    (hkey : ∀ key, a.key? = some key → key ∈ K) (hstep : s.step a = some s') : OneShotInv K s' := by
  cases a with
  | send key sendArgs val isDead => exact oneShotInv_send hinv hK (hkey key rfl) hstep
  | recvAsync key recvArgs => exact oneShotInv_recvAsync hinv hK (hkey key rfl) hstep
  | startAbort status => exact oneShotInv_startAbort hinv hstep
  | callDone i => exact oneShotInv_callDone hinv hstep

variable {a : Action τ}

/-- A call, once its client is past the lock, is there for good. -/
theorem mem_invocations_of_step (hstep : s.step a = some s') {inv : Invocation τ}
    (hmem : inv ∈ s.invocations) : inv ∈ s'.invocations := by
  have of_append (new : List (Invocation τ)) (hp : s'.pending = s.pending ++ new)
      (hh : calls s'.history = calls s.history) : inv ∈ s'.invocations :=
    (invocations_perm_append hp hh).mem_iff.2 (mem_append_left _ hmem)
  cases a with
  | send key sendArgs val isDead =>
    rcases h : s.rendezvous.send key sendArgs val isDead with ⟨r, status, waiter⟩
    have hs' := some.inj ((System.step_send h).symm.trans hstep)
    exact of_append waiter.toList (by rw [← hs']) (by rw [← hs']; rfl)
  | recvAsync key recvArgs =>
    rcases h : s.rendezvous.recvAsync key recvArgs s.nextDone with ⟨r, call⟩
    have hs' := some.inj ((System.step_recvAsync h).symm.trans hstep)
    exact of_append call.toList (by rw [← hs']) (by rw [← hs']; rfl)
  | startAbort status =>
    obtain ⟨-, hs'⟩ := System.step_startAbort hstep
    exact of_append (s.rendezvous.startAbort status).2 (by rw [hs']) (by rw [hs']; rfl)
  | callDone i => exact (invocations_perm_of_callDone hstep).mem_iff.2 hmem

/-- The first abort status stays. -/
theorem status_of_step (hstep : s.step a = some s') (hst : s.rendezvous.status ≠ .ok) :
    s'.rendezvous.status = s.rendezvous.status := by
  cases a with
  | send key sendArgs val isDead =>
    have h : s.rendezvous.send key sendArgs val isDead =
        (s.rendezvous, s.rendezvous.status, none) :=
      by simp [send, hst]
    obtain rfl := some.inj ((System.step_send h).symm.trans hstep)
    rfl
  | recvAsync key recvArgs =>
    have h : s.rendezvous.recvAsync key recvArgs s.nextDone =
        (s.rendezvous, some ⟨s.nextDone, s.rendezvous.status, {}, recvArgs, default, false⟩) := by
      simp [recvAsync, hst]
    obtain rfl := some.inj ((System.step_recvAsync h).symm.trans hstep)
    rfl
  | startAbort status =>
    obtain ⟨-, rfl⟩ := System.step_startAbort hstep
    simp [startAbort, hst]
  | callDone i =>
    obtain ⟨inv, -, rfl⟩ := System.step_callDone hstep
    rfl

/-- An abort that is the first one: its status stands, and every receiver that had no call gets
one with it. -/
theorem OneShotInv.of_firstAbort (hinv : OneShotInv K s) (hst : s.rendezvous.status = .ok)
    (hstep : s.step (.startAbort status) = some s') : s'.rendezvous.status = status ∧ status ≠ .ok ∧
      ∀ key done, Event.recvAsync key done ∈ s.history →
        (∀ inv ∈ s.invocations, inv.done ≠ done) →
          ∃ inv ∈ s'.invocations, inv.done = done ∧ inv.status = status := by
  obtain ⟨hstatus, rfl⟩ := System.step_startAbort hstep
  refine ⟨by simp [startAbort, hst], hstatus, fun key done hrecv hnone ↦ ?_⟩
  rcases hinv.answered_or_waiting hst hrecv with ⟨inv, hmem, hd⟩ | ⟨item, hl, hw⟩
  · exact absurd hd (hnone inv hmem)
  · refine ⟨⟨done, status, {}, {}, default, false⟩,
      mem_append_left _ (mem_append_right _ ?_), rfl, rfl⟩
    simp only [startAbort, hst, ne_eq, not_true_eq_false, if_false]
    exact mem_filterMap.2 ⟨_, AList.mem_lookup_iff.1 hl, by simp [abortInvocation, hw]⟩

end Step

/-! ### Runs -/

theorem oneShotInv_of_run [Inhabited τ] {as : List (Action τ)} {s t : System τ}
    (hK : Set.InjOn keyHash K) (hkeys : ∀ a ∈ as, ∀ key, a.key? = some key → key ∈ K)
    (hs : OneShotInv K s) (hrun : run System.step s as = some t) : OneShotInv K t :=
  run_invariant (fun ha hinv hstep ↦ oneShotInv_step hinv hK (hkeys _ ha) hstep) hs hrun

/-- **One-shot matching.** Without `tolerate_dup_recv`, in every state that any interleaving of
`Send`, `RecvAsync`, `StartAbort` and late callbacks leads to, the promises of `OneShot` hold; and
the first `StartAbort` of the run fixes the status for good and has every receiver that was still
waiting called, once, with that status. -/
theorem oneShot_of_run [Inhabited τ] {as : List (Action τ)} {s : System τ}
    (hK : Set.InjOn keyHash (keysUsed as))
    (hrun : run System.step (System.init false) as = some s) :
    OneShot s ∧ ∀ as₁ status as₂ s₁, as = as₁ ++ .startAbort status :: as₂ →
      run System.step (System.init false) as₁ = some s₁ → s₁.rendezvous.status = .ok →
        s.rendezvous.status = status ∧
        ∀ key done, Event.recvAsync key done ∈ s₁.history →
          (∀ inv ∈ s₁.invocations, inv.done ≠ done) →
            ∃ inv ∈ s.invocations, inv.done = done ∧ inv.status = status := by
  have hkeys : ∀ a ∈ as, ∀ key, a.key? = some key → key ∈ keysUsed as :=
    fun a ha key hkey ↦ ⟨a, ha, hkey⟩
  refine ⟨oneShot_of_inv (oneShotInv_of_run hK hkeys (oneShotInv_init _) hrun), ?_⟩
  intro as₁ status as₂ s₁ has hrun₁ hst₁
  have hinv₁ := oneShotInv_of_run hK
    (fun a ha ↦ hkeys a (has ▸ mem_append_left _ ha)) (oneShotInv_init _) hrun₁
  rw [has] at hrun
  obtain ⟨u, hu, hrest⟩ := run_append_eq_some.1 hrun
  obtain rfl : s₁ = u := some.inj (hrun₁.symm.trans hu)
  obtain ⟨s₂, hs₂, hrun₂⟩ := run_cons_eq_some.1 hrest
  obtain ⟨hst₂, hstatus, hcalled⟩ := hinv₁.of_firstAbort hst₁ hs₂
  -- From the abort on, neither the status nor the calls go away.
  refine ⟨run_invariant (I := fun t ↦ t.rendezvous.status = status) (fun _ hI hstep ↦ ?_) hst₂
    hrun₂,
    fun key done hrecv hnone ↦ ?_⟩
  · exact (status_of_step hstep (hI ▸ hstatus)).trans hI
  · obtain ⟨inv, hmem, hd, hs⟩ := hcalled key done hrecv hnone
    exact ⟨inv, run_invariant (I := fun t ↦ inv ∈ t.invocations)
      (fun _ hI hstep ↦ mem_invocations_of_step hstep hI) hmem hrun₂, hd, hs⟩

/-- A receiver waits, its message comes, a second `Send` is turned away, and a receiver under
another key is left waiting. -/
def leftWaiting : List (Action (List ℕ)) :=
  [.recvAsync [] {}, .send [] {} [7] false, .callDone 0, .send [] {} [8] false,
    .recvAsync [1] {}]

theorem oneShot_leftWaiting_aborted :
    ∃ s : System (List ℕ),
      run System.step (System.init false)
        (leftWaiting ++ [.startAbort (.error .cancelled [])]) = some s ∧
      OneShot s ∧ s.rendezvous.status = .error .cancelled [] ∧
      ∃ inv ∈ s.invocations, inv.done = 1 ∧ inv.status = .error .cancelled [] := by
  have hne : keyHash [] ≠ keyHash [1] := by decide +kernel
  have hK : Set.InjOn keyHash
      (keysUsed (leftWaiting ++ [.startAbort (.error .cancelled [])])) := by
    have hsub : keysUsed (leftWaiting ++ [.startAbort (.error .cancelled [])]) ⊆ {[], [1]} := by
      rintro key ⟨a, ha, hkey⟩
      revert key
      revert a
      simp [leftWaiting, Action.key?]
    refine Set.InjOn.mono hsub ?_
    simp [Set.InjOn, hne, hne.symm]
  obtain ⟨s₁, hrun₁, hst, hrecv, hinv⟩ : ∃ s₁ : System (List ℕ),
      run System.step (System.init false) leftWaiting = some s₁ ∧ s₁.rendezvous.status = .ok ∧
        Event.recvAsync [1] 1 ∈ s₁.history ∧ s₁.invocations.map Invocation.done = [0] :=
    ⟨_, rfl, rfl, mem_cons_self, rfl⟩
  obtain ⟨s, hrun⟩ : ∃ s : System (List ℕ), run System.step (System.init false)
      (leftWaiting ++ [.startAbort (.error .cancelled [])]) = some s := ⟨_, rfl⟩
  obtain ⟨hone, habort⟩ := oneShot_of_run hK hrun
  obtain ⟨hstatus, hcalled⟩ := habort leftWaiting _ [] s₁ rfl hrun₁ hst
  refine ⟨s, hrun, hone, hstatus, hcalled [1] 1 hrecv fun inv hmem hd ↦ ?_⟩
  have := mem_map_of_mem (f := Invocation.done) hmem
  simp [hinv, hd] at this

end TensorFlowCore.Rendezvous
