import TensorFlowCore.Framework.Rendezvous.Model

/-!
# Every delivered message was sent

A done callback that is called with an OK status is meant to receive a message that some `Send`
stored under its key. `DeliversOnlySent` says so about a history: each OK call comes **after** a
successful `Send` of exactly its value and dead flag, under the key of the receiver.

With `tolerate_dup_recv` the branch of `RecvAsync` for "a message has already arrived" is also taken
when the item found is a *waiting receiver*: nothing has been sent, and `done` is called with OK and
the empty tensor. `receivedUnsent` is such a run. `MeetsNoWaiter` is the condition on the state
before a step that rules this branch out, and `deliversOnlySent_of_run` proves the property for
every run whose steps meet it. Without `tolerate_dup_recv` the condition is vacuous.
-/

namespace TensorFlowCore.Rendezvous

open GuardedRun List LocalRendezvousImpl Option

variable {τ : Type*}

/-- In the events `earlier`, a receiver was registered for this call's callback, and a `Send` of
exactly this call's message succeeded under the same key. -/
def SentBefore (earlier : List (Event τ)) (inv : Invocation τ) : Prop :=
  ∃ key, Event.recvAsync key inv.done ∈ earlier ∧
    Event.send key inv.value inv.isDead .ok ∈ earlier

/-- Every callback called with OK received the message of a `Send` that had succeeded under its key
before the call. Histories are newest first, so what precedes a call is the rest of the list. -/
def DeliversOnlySent (history : List (Event τ)) : Prop :=
  ∀ inv earlier, Event.called inv :: earlier <:+ history → inv.status = .ok →
    SentBefore earlier inv

/-- The condition on a step: with `tolerate_dup_recv`, a `RecvAsync` does not find the item of a
receiver that is still waiting. -/
def MeetsNoWaiter (s : System τ) : Action τ → Prop
  | .recvAsync key _ => s.rendezvous.tolerateDupRecv = true →
      ∀ item, s.rendezvous.table.lookup (keyHash key) = some item → item.waiter = none
  | _ => True

/-! ### The invariant -/

theorem SentBefore.cons {earlier : List (Event τ)} {inv : Invocation τ} (e : Event τ)
    (h : SentBefore earlier inv) : SentBefore (e :: earlier) inv := by
  obtain ⟨key, hrecv, hsend⟩ := h
  exact ⟨key, mem_cons_of_mem _ hrecv, mem_cons_of_mem _ hsend⟩

/-- What an item under `key` stands for: its waiter is a receiver of `key`, and an item without a
waiter that can still be read holds a message that was sent under `key`. -/
def ItemFor (tolerateDupRecv : Bool) (history : List (Event τ)) (key : ByteString)
    (item : Item τ) : Prop :=
  (∀ waiter, item.waiter = some waiter → Event.recvAsync key waiter ∈ history) ∧
  (item.waiter = none → (tolerateDupRecv = true ∨ item.hasBeenRecvd = false) →
    Event.send key item.value item.isDead .ok ∈ history)

theorem ItemFor.cons {tol : Bool} {history : List (Event τ)} {item : Item τ} (e : Event τ)
    (h : ItemFor tol history key item) : ItemFor tol (e :: history) key item :=
  ⟨fun w hw ↦ mem_cons_of_mem _ (h.1 w hw), fun hn hr ↦ mem_cons_of_mem _ (h.2 hn hr)⟩

/-- The state keeps, for keys in `K`, only items and pending calls that the history accounts
for. -/
structure DeliveryInv (K : Set ByteString) (s : System τ) : Prop where
  entry : ∀ h item, s.rendezvous.table.lookup h = some item →
    ∃ key ∈ K, keyHash key = h ∧ ItemFor s.rendezvous.tolerateDupRecv s.history key item
  pending : ∀ inv ∈ s.pending, inv.status = .ok → SentBefore s.history inv
  delivered : DeliversOnlySent s.history

theorem deliveryInv_init (K : Set ByteString) (tol : Bool) :
    DeliveryInv K (System.init tol : System τ) where
  entry h item hl := by simp [System.init, LocalRendezvousImpl.init] at hl
  pending inv hinv := by simp [System.init] at hinv
  delivered inv earlier h := by simp [System.init] at h

/-- An event that is not a call adds nothing to deliver. -/
theorem DeliversOnlySent.cons {history : List (Event τ)} (h : DeliversOnlySent history)
    {e : Event τ} (he : ∀ inv, e = .called inv → inv.status = .ok → SentBefore history inv) :
    DeliversOnlySent (e :: history) := by
  intro inv earlier hsuf hok
  rcases suffix_cons_iff.1 hsuf with heq | hsuf'
  · obtain ⟨rfl, rfl⟩ := cons.inj heq
    exact he inv rfl hok
  · exact h inv earlier hsuf' hok

section Step

variable {K : Set ByteString} {s s' : System τ}

/-- The item found under a key of `K` is an item *of that key*: this is where the hash has to be
injective on the keys used. -/
theorem DeliveryInv.itemFor (hinv : DeliveryInv K s) (hK : Set.InjOn keyHash K) (hkey : key ∈ K)
    {item : Item τ} (hl : s.rendezvous.table.lookup (keyHash key) = some item) :
    ItemFor s.rendezvous.tolerateDupRecv s.history key item := by
  obtain ⟨key', hkey', hhash, hitem⟩ := hinv.entry _ _ hl
  exact hK hkey' hkey hhash ▸ hitem

/-- Replacing the item of one key keeps the table accounted for. -/
theorem DeliveryInv.entry_insert (hinv : DeliveryInv K s) (hkey : key ∈ K) {item : Item τ}
    {e : Event τ} (hitem : ItemFor s.rendezvous.tolerateDupRecv (e :: s.history) key item) :
    ∀ h item', (s.rendezvous.table.insert (keyHash key) item).lookup h = some item' →
      ∃ key ∈ K, keyHash key = h ∧
        ItemFor s.rendezvous.tolerateDupRecv (e :: s.history) key item' := by
  intro h item' hl
  by_cases hh : h = keyHash key
  · subst hh
    rw [AList.lookup_insert] at hl
    cases hl
    exact ⟨key, hkey, rfl, hitem⟩
  · rw [AList.lookup_insert_ne hh] at hl
    obtain ⟨key', hkey', hhash, hitem'⟩ := hinv.entry h item' hl
    exact ⟨key', hkey', hhash, hitem'.cons e⟩

theorem DeliveryInv.entry_cons (hinv : DeliveryInv K s) (e : Event τ) :
    ∀ h item, s.rendezvous.table.lookup h = some item →
      ∃ key ∈ K, keyHash key = h ∧
        ItemFor s.rendezvous.tolerateDupRecv (e :: s.history) key item := by
  intro h item hl
  obtain ⟨key, hkey, hhash, hitem⟩ := hinv.entry h item hl
  exact ⟨key, hkey, hhash, hitem.cons e⟩

/-- Pending calls stay accounted for when calls that are accounted for join them. -/
theorem DeliveryInv.pending_append (hinv : DeliveryInv K s) {e : Event τ}
    {calls : List (Invocation τ)}
    (hcalls : ∀ inv ∈ calls, inv.status = .ok → SentBefore (e :: s.history) inv) :
    ∀ inv ∈ s.pending ++ calls, inv.status = .ok → SentBefore (e :: s.history) inv := by
  intro inv hmem hok
  rcases mem_append.1 hmem with h | h
  · exact (hinv.pending inv h hok).cons e
  · exact hcalls inv h hok

variable [Inhabited τ]

variable (hinv : DeliveryInv K s)
include hinv

/-- A send serves the receive that waits, or leaves its value for a later one. -/
theorem deliveryInv_send (hK : Set.InjOn keyHash K) (hkey : key ∈ K) {sendArgs : Args} {val : τ}
    {isDead : Bool} (hstep : s.step (.send key sendArgs val isDead) = some s') :
    DeliveryInv K s' := by
  have hdel : ∀ status, DeliversOnlySent (.send key val isDead status :: s.history) :=
    fun status ↦ hinv.delivered.cons (by simp)
  rcases send_cases s.rendezvous key sendArgs val isDead with
    ⟨-, h⟩ | ⟨-, hl, h⟩ | ⟨-, item, hl, hw, h⟩ | ⟨-, item, waiter, hl, hw, h⟩
  · obtain rfl := some.inj ((System.step_send h).symm.trans hstep)
    exact ⟨hinv.entry_cons _, hinv.pending_append (by simp), hdel _⟩
  · obtain rfl := some.inj ((System.step_send h).symm.trans hstep)
    refine ⟨hinv.entry_insert hkey ⟨by simp [messageItem], fun _ _ ↦ ?_⟩,
      hinv.pending_append (by simp), hdel _⟩
    exact mem_cons_self
  · obtain rfl := some.inj ((System.step_send h).symm.trans hstep)
    exact ⟨hinv.entry_cons _, hinv.pending_append (by simp), hdel _⟩
  · obtain rfl := some.inj ((System.step_send h).symm.trans hstep)
    -- The receiver that waited under this key is the one that gets this message.
    have hrecv := (hinv.itemFor hK hkey hl).1 waiter hw
    refine ⟨hinv.entry_insert hkey ⟨?_, fun _ hr ↦ ?_⟩, hinv.pending_append ?_, hdel _⟩
    · intro w hw'
      cases htol : s.rendezvous.tolerateDupRecv <;> simp [completedItem, htol] at hw'
    · cases htol : s.rendezvous.tolerateDupRecv with
      | false => simp [completedItem, htol] at hr
      | true => simp [completedItem]
    · intro inv hmem _
      obtain rfl : inv = _ := by simpa using hmem
      exact ⟨key, mem_cons_of_mem _ hrecv, mem_cons_self⟩

/-- A receive takes the sent value, or waits where no other receive waits. -/
theorem deliveryInv_recvAsync (hK : Set.InjOn keyHash K) (hkey : key ∈ K) {recvArgs : Args}
    (hcond : MeetsNoWaiter s (.recvAsync key recvArgs))
    (hstep : s.step (.recvAsync key recvArgs) = some s') : DeliveryInv K s' := by
  have hdel : DeliversOnlySent (.recvAsync key s.nextDone :: s.history) :=
    hinv.delivered.cons (by simp)
  rcases recvAsync_cases s.rendezvous key recvArgs s.nextDone with
    ⟨hst, h⟩ | ⟨-, -, -, h⟩ | ⟨-, item, hl, hread, h⟩ | ⟨-, hl, h⟩
  · obtain rfl := some.inj ((System.step_recvAsync h).symm.trans hstep)
    refine ⟨hinv.entry_cons _, hinv.pending_append ?_, hdel⟩
    intro inv hmem hok
    obtain rfl : inv = _ := by simpa using hmem
    exact absurd hok hst
  · obtain rfl := some.inj ((System.step_recvAsync h).symm.trans hstep)
    refine ⟨hinv.entry_cons _, hinv.pending_append ?_, hdel⟩
    intro inv hmem hok
    obtain rfl : inv = _ := by simpa using hmem
    exact absurd hok (Status.aborted_ne_ok _)
  · obtain rfl := some.inj ((System.step_recvAsync h).symm.trans hstep)
    -- The item read has no waiter, so it holds a message that was sent under this key.
    have hw : item.waiter = none := by
      rcases hread with htol | ⟨-, hw⟩
      · exact hcond htol item hl
      · exact hw
    have hsent : Event.send key item.value item.isDead .ok ∈ s.history :=
      (hinv.itemFor hK hkey hl).2 hw (hread.imp_right And.left)
    refine ⟨hinv.entry_insert hkey ⟨by simp [consumedItem, hw], fun _ hr ↦ ?_⟩,
      hinv.pending_append ?_, hdel⟩
    · rcases hr with htol | hr
      · simpa [consumedItem, htol] using hsent
      · simp [consumedItem] at hr
    · intro inv hmem _
      obtain rfl : inv = _ := by simpa using hmem
      exact ⟨key, mem_cons_self, mem_cons_of_mem _ hsent⟩
  · obtain rfl := some.inj ((System.step_recvAsync h).symm.trans hstep)
    refine ⟨hinv.entry_insert hkey ⟨?_, by simp [waiterItem]⟩, hinv.pending_append (by simp), hdel⟩
    intro w hw
    obtain rfl : s.nextDone = w := by simpa [waiterItem] using hw
    exact mem_cons_self

theorem deliveryInv_startAbort {status : Status} (hstep : s.step (.startAbort status) = some s') :
    DeliveryInv K s' := by
  obtain ⟨hstatus, rfl⟩ := System.step_startAbort hstep
  have hdel : DeliversOnlySent (.startAbort status :: s.history) :=
    hinv.delivered.cons (by simp)
  by_cases hst : s.rendezvous.status = .ok
  · simp only [startAbort, hst, ne_eq, not_true_eq_false, if_false]
    refine ⟨fun h item hl ↦ by simp at hl, hinv.pending_append ?_, hdel⟩
    intro inv hmem hok
    obtain ⟨entry, -, hentry⟩ := mem_filterMap.1 hmem
    obtain ⟨w, -, rfl⟩ := map_eq_some_iff.1 hentry
    exact absurd hok hstatus
  · simp only [startAbort, hst, ne_eq, not_false_eq_true, if_true]
    exact ⟨hinv.entry_cons _, hinv.pending_append (by simp), hdel⟩

theorem deliveryInv_callDone {i : ℕ} (hstep : s.step (.callDone i) = some s') :
    DeliveryInv K s' := by
  obtain ⟨inv, hi, rfl⟩ := System.step_callDone hstep
  refine ⟨hinv.entry_cons _, fun inv' hmem hok ↦ ?_, hinv.delivered.cons ?_⟩
  · exact (hinv.pending inv' (mem_of_mem_eraseIdx hmem) hok).cons _
  · rintro inv' heq hok
    obtain rfl := Event.called.inj heq
    exact hinv.pending inv (mem_of_getElem? hi) hok

/-- One step keeps the invariant, when it uses keys of `K` and meets the condition. -/
theorem deliveryInv_step (hK : Set.InjOn keyHash K) {a : Action τ}
    (hkey : ∀ key, a.key? = some key → key ∈ K) (hcond : MeetsNoWaiter s a)
    (hstep : s.step a = some s') : DeliveryInv K s' := by
  cases a with
  | send key sendArgs val isDead => exact deliveryInv_send hinv hK (hkey key rfl) hstep
  | recvAsync key recvArgs => exact deliveryInv_recvAsync hinv hK (hkey key rfl) hcond hstep
  | startAbort status => exact deliveryInv_startAbort hinv hstep
  | callDone i => exact deliveryInv_callDone hinv hstep

end Step

/-! ### Runs -/

/-- **Every message delivered was sent.** In every run whose steps meet `MeetsNoWaiter`, for either
value of `tolerate_dup_recv` and any interleaving of critical sections and late callbacks, a done
callback called with OK receives exactly the value and dead flag of a `Send` that had succeeded
under the same key. -/
theorem deliversOnlySent_of_run [Inhabited τ] {tolerateDupRecv : Bool} {as : List (Action τ)}
    {s : System τ} (hK : Set.InjOn keyHash (keysUsed as))
    (hcond : Along System.step MeetsNoWaiter (System.init tolerateDupRecv) as)
    (hrun : run System.step (System.init tolerateDupRecv) as = some s) :
    DeliversOnlySent s.history := by
  have hkeys : ∀ a ∈ as, ∀ key, a.key? = some key → key ∈ keysUsed as :=
    fun a ha key hkey ↦ ⟨a, ha, hkey⟩
  exact (run_invariant_of_along (fun ha hinv hP hstep ↦
    deliveryInv_step hinv hK (hkeys _ ha) hP hstep) (deliveryInv_init _ _) hcond hrun).delivered

/-- A run under `tolerate_dup_recv` in which one receive waits, the message is sent and delivered,
and a second receive then reads the same message. -/
def lateDuplicate : List (Action (List ℕ)) :=
  [.recvAsync [] {}, .send [] {} [7] false, .callDone 0, .recvAsync [] {}, .callDone 0]

/-- A run that uses one key only meets the hypothesis on the hash. -/
theorem injOn_keysUsed_of_single {as : List (Action τ)} (key : ByteString)
    (h : ∀ a ∈ as, ∀ key', a.key? = some key' → key' = key) : Set.InjOn keyHash (keysUsed as) := by
  rintro k ⟨a, ha, hk⟩ k' ⟨a', ha', hk'⟩ -
  rw [h a ha k hk, h a' ha' k' hk']

theorem deliversOnlySent_lateDuplicate :
    ∃ s : System (List ℕ), run System.step (System.init true) lateDuplicate = some s ∧
      s.history.length = 5 ∧ DeliversOnlySent s.history := by
  have hK : Set.InjOn keyHash (keysUsed lateDuplicate) :=
    injOn_keysUsed_of_single [] (by simp [lateDuplicate, Action.key?])
  have hcond : Along System.step MeetsNoWaiter (System.init true) lateDuplicate := by
    refine (along_cons_of_step rfl).2 ⟨fun _ item h ↦ ?_, ?_⟩
    · cases h
    refine (along_cons_of_step rfl).2 ⟨trivial, (along_cons_of_step rfl).2 ⟨trivial, ?_⟩⟩
    refine (along_cons_of_step rfl).2 ⟨fun _ item h ↦ ?_, (along_cons_of_step rfl).2 ⟨trivial, ?_⟩⟩
    · cases h
      rfl
    · trivial
  obtain ⟨s, hrun, hlen⟩ : ∃ s : System (List ℕ),
      run System.step (System.init true) lateDuplicate = some s ∧ s.history.length = 5 :=
    ⟨_, rfl, rfl⟩
  exact ⟨s, hrun, hlen, deliversOnlySent_of_run hK hcond hrun⟩

/-- Two receives under one key before anything is sent, with `tolerate_dup_recv`: the second finds
the item of the first, and its callback is called with OK and the empty tensor. -/
def receivedUnsent : List (Action (List ℕ)) :=
  [.recvAsync [] {}, .recvAsync [] {}, .callDone 0]

theorem not_deliversOnlySent_receivedUnsent :
    ∃ s : System (List ℕ), Set.InjOn keyHash (keysUsed receivedUnsent) ∧
      run System.step (System.init true) receivedUnsent = some s ∧
      ¬ DeliversOnlySent s.history := by
  obtain ⟨s, hrun, hhist⟩ : ∃ s : System (List ℕ),
      run System.step (System.init true) receivedUnsent = some s ∧
        s.history = [.called ⟨1, .ok, {}, {}, [], false⟩, .recvAsync [] 1, .recvAsync [] 0] :=
    ⟨_, rfl, rfl⟩
  refine ⟨s, injOn_keysUsed_of_single [] (by simp [receivedUnsent, Action.key?]), hrun, fun h ↦ ?_⟩
  rw [hhist] at h
  obtain ⟨key, -, hsend⟩ := h _ _ suffix_rfl rfl
  simp at hsend

end TensorFlowCore.Rendezvous
