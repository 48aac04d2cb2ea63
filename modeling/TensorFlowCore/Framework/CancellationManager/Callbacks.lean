import TensorFlowCore.Framework.CancellationManager.Model

/-!
# The callbacks of a `CancellationManager`

In every run in which a token is registered at most once, a callback runs at most once. If it is
registered, either it is deregistered before the cancellation or it has run by the time
`is_cancelled_` is set; if it is refused it never runs; and once `DeregisterCallback` has returned,
it is not running, and it never will if it was registered before (`guarantees_of_run`).
-/

namespace TensorFlowCore.CancellationManager

open GuardedRun KeyedList List

variable {C F : Type} [DecidableEq C] [DecidableEq F] {s s' : CancellationManager C F}
    {a : Action C F}
  {as : List (Action C F)} {c d : C} {x : Client F} {token : CancellationToken} {f : F}

/-! ### How a callback leaves a stage -/

omit [DecidableEq C] [DecidableEq F] in
theorem Inv.isOpen_eq_false (h : Inv s) (hc : (s.client c).IsCancelling) : s.isOpen = false := by
  rw [isOpen, h.cancelling c hc, Bool.not_true, Bool.and_false]

omit [DecidableEq F] in
theorem client_setClient_of_isCancelling (hc : (s.client c).IsCancelling)
    (hd : ¬ (s.client d).IsCancelling) :
    (s.setClient d x).client c = s.client c := by
  refine client_setClient_of_ne ?_
  rintro rfl
  exact hd hc

/-- Nobody else changes the client that cancels, or cancels too. -/
theorem Inv.step_of_isCancelling (h : Inv s) (hc : (s.client c).IsCancelling)
    (hs : s.step a = some s') (token : CancellationToken) :
    (∃ t g, a = .runCallback c t g) ∨ (∃ t g, a = .callbackReturns c t g) ∨ a = .finishCancel c ∨
      s'.client c = s.client c ∧ a.runs? ≠ some token ∧ ∀ i, a ≠ .finishCancel i := by
  have hclosed := h.isOpen_eq_false hc
  cases a with
  | getCancellationToken d =>
    obtain rfl := step_getCancellationToken hs
    exact .inr (.inr (.inr ⟨rfl, nofun, nofun⟩))
  | registerCallback d t callback registered =>
    obtain ⟨rfl, rfl⟩ := step_registerCallback hs
    rw [hclosed]
    exact .inr (.inr (.inr ⟨rfl, nofun, nofun⟩))
  | startCancel d =>
    obtain ⟨-, rfl⟩ := step_startCancel hs
    rw [hclosed]
    exact .inr (.inr (.inr ⟨rfl, nofun, nofun⟩))
  | runCallback d t callback =>
    obtain ⟨_, hd, -⟩ := step_runCallback hs
    obtain rfl := h.unique c d hc (hd ▸ trivial)
    exact .inl ⟨t, callback, rfl⟩
  | callbackReturns d t callback =>
    obtain ⟨_, hd, -⟩ := step_callbackReturns hs
    obtain rfl := h.unique c d hc (hd ▸ trivial)
    exact .inr (.inl ⟨t, callback, rfl⟩)
  | finishCancel d =>
    obtain ⟨hd, -⟩ := step_finishCancel hs
    obtain rfl := h.unique c d hc (hd ▸ trivial)
    exact .inr (.inr (.inl rfl))
  | notify d =>
    obtain ⟨hd, rfl⟩ := step_notify hs
    have hclient : (({ s with notified := true } : CancellationManager C F).setClient d
      .idle).client c =
        s.client c := client_setClient_of_isCancelling hc (hd ▸ id)
    exact .inr (.inr (.inr ⟨hclient, nofun, nofun⟩))
  | deregisterCallback d t returned =>
    obtain ⟨hd, ⟨-, -, rfl⟩ | ⟨-, -, -, rfl⟩ | ⟨-, -, rfl⟩⟩ := step_deregisterCallback hs
    · exact .inr (.inr (.inr ⟨rfl, nofun, nofun⟩))
    · exact .inr (.inr (.inr ⟨client_setClient_of_isCancelling hc (hd ▸ id), nofun, nofun⟩))
    · exact .inr (.inr (.inr ⟨rfl, nofun, nofun⟩))
  | stopWaiting d t =>
    obtain ⟨hd, -, rfl⟩ := step_stopWaiting hs
    exact .inr (.inr (.inr ⟨client_setClient_of_isCancelling hc (hd ▸ id), nofun, nofun⟩))

/-- A callback that is running is not run again, and the cancellation does not finish before it
returns. -/
theorem Running.step (h : Running c token f s) (hinv : Inv s) (hs : s.step a = some s') :
    a = .callbackReturns c token f ∧ Gone token s' ∨
      Running c token f s' ∧ a.runs? ≠ some token ∧ ∀ i, a ≠ .finishCancel i := by
  have ⟨callbacksToRun, hc, hget⟩ := h
  have hcancels : (s.client c).IsCancelling := hc ▸ trivial
  obtain ⟨t, g, rfl⟩ | ⟨t, g, rfl⟩ | rfl | ⟨hclient, ha⟩ :=
    hinv.step_of_isCancelling hcancels hs token
  · obtain ⟨_, hd, -⟩ := step_runCallback hs
    cases hc.symm.trans hd
  · obtain ⟨_, hd, rfl⟩ := step_callbackReturns hs
    cases hc.symm.trans hd
    refine .inl ⟨rfl, ?_, fun e ↦ ?_⟩
    · show get? token s.callbacks = none
      rw [hinv.swapped (hinv.isOpen_eq_false hcancels)]
      rfl
    · obtain rfl | hne := eq_or_ne e c
      · rw [client_setClient_self]
        exact ⟨hget, nofun⟩
      · rw [client_setClient_of_ne hne]
        exact Client.without_of_not fun he ↦ hne (hinv.unique e c he hcancels)
  · obtain ⟨hd, -⟩ := step_finishCancel hs
    cases hc.symm.trans hd
  · exact .inr ⟨⟨callbacksToRun, hclient.trans hc, hget⟩, ha⟩

/-- A callback that is scheduled is run before the cancellation finishes. -/
theorem Scheduled.step (h : Scheduled c token f s) (hinv : Inv s) (hs : s.step a = some s') :
    a = .runCallback c token f ∧ Running c token f s' ∨
      Scheduled c token f s' ∧ a.runs? ≠ some token ∧ ∀ i, a ≠ .finishCancel i := by
  have ⟨callbacksToRun, running, hc, hget, hrunning⟩ := h
  have hcancels : (s.client c).IsCancelling := hc ▸ trivial
  obtain ⟨t, g, rfl⟩ | ⟨t, g, rfl⟩ | rfl | ⟨hclient, ha⟩ :=
    hinv.step_of_isCancelling hcancels hs token
  · obtain ⟨_, hd, hget', rfl⟩ := step_runCallback hs
    cases hc.symm.trans hd
    obtain rfl | hne := eq_or_ne t token
    · obtain rfl : g = f := Option.some.inj (hget'.symm.trans hget)
      exact .inl ⟨rfl, _, client_setClient_self, get?_erase_self⟩
    · refine .inr ⟨⟨_, _, client_setClient_self, (get?_erase_of_ne hne.symm).trans hget,
        fun g' heq ↦ ?_⟩,
        fun heq ↦ hne (Option.some.inj heq), nofun⟩
      exact hne (congrArg Prod.fst (Option.some.inj heq))
  · obtain ⟨_, hd, rfl⟩ := step_callbackReturns hs
    cases hc.symm.trans hd
    exact .inr ⟨⟨_, _, client_setClient_self, hget, nofun⟩, nofun, nofun⟩
  · obtain ⟨hd, -⟩ := step_finishCancel hs
    cases hc.symm.trans hd
    cases hget
  · exact .inr ⟨⟨callbacksToRun, running, hclient.trans hc, hget, hrunning⟩, ha⟩

/-- A registered callback is deregistered or scheduled, if it does not stay registered. -/
theorem Registered.step (h : Registered token f s) (hinv : Inv s) (hs : s.step a = some s')
    (ha : a.registers? ≠ some token) :
    (∃ d, a = .deregisterCallback d token (some true)) ∧ Gone token s' ∨
      (∃ d, a = .startCancel d ∧ Scheduled d token f s') ∨
      Registered token f s' ∧ a.runs? ≠ some token ∧ (∀ i, a ≠ .startCancel i) ∧
      ∀ i, a ≠ .finishCancel i := by
  obtain ⟨hcancelled, hcancelling⟩ := isOpen_iff.1 h.isOpen
  have hnobody : ∀ d, ¬ (s.client d).IsCancelling := fun d ↦ hinv.not_isCancelling hcancelling
  cases a with
  | getCancellationToken d =>
    obtain rfl := step_getCancellationToken hs
    exact .inr (.inr ⟨⟨h.isOpen, h.callbacks⟩, nofun, nofun, nofun⟩)
  | registerCallback d t callback registered =>
    obtain ⟨-, rfl⟩ := step_registerCallback hs
    have hne : token ≠ t := fun heq ↦ ha (congrArg some heq.symm)
    refine .inr (.inr ⟨?_, nofun, nofun, nofun⟩)
    cases registered with
    | true => exact ⟨h.isOpen, (get?_set_of_ne hne).trans h.callbacks⟩
    | false => exact h
  | startCancel d =>
    obtain ⟨-, rfl⟩ := step_startCancel hs
    rw [if_pos h.isOpen]
    exact .inr (.inl ⟨d, rfl, _, _, client_setClient_self, h.callbacks, nofun⟩)
  | runCallback d t callback =>
    obtain ⟨_, hd, -, -⟩ := step_runCallback hs
    exact (hnobody d (hd ▸ trivial)).elim
  | callbackReturns d t callback =>
    obtain ⟨_, hd, -⟩ := step_callbackReturns hs
    exact (hnobody d (hd ▸ trivial)).elim
  | finishCancel d =>
    obtain ⟨hd, -⟩ := step_finishCancel hs
    exact (hnobody d (hd ▸ trivial)).elim
  | notify d =>
    obtain ⟨hd, -⟩ := step_notify hs
    cases hcancelled.symm.trans (hinv.notifying d hd)
  | deregisterCallback d t returned =>
    obtain ⟨-, ⟨h', -⟩ | ⟨-, h', -⟩ | ⟨-, rfl, rfl⟩⟩ := step_deregisterCallback hs
    · cases hcancelled.symm.trans h'
    · cases hcancelling.symm.trans h'
    · obtain rfl | hne := eq_or_ne t token
      · exact .inl ⟨⟨d, rfl⟩, get?_erase_self, fun e ↦ Client.without_of_not (hnobody e)⟩
      · exact .inr (.inr ⟨⟨h.isOpen, (get?_erase_of_ne hne.symm).trans h.callbacks⟩, nofun,
          nofun, nofun⟩)
  | stopWaiting d t =>
    obtain ⟨-, -, rfl⟩ := step_stopWaiting hs
    exact .inr (.inr ⟨⟨h.isOpen, h.callbacks⟩, nofun, nofun, nofun⟩)

/-- While callbacks can be registered, nobody has started to cancel. -/
theorem isOpen_of_step (hs : s.step a = some s') (hopen : s'.isOpen = true) :
    s.isOpen = true ∧ ∀ c, a ≠ .startCancel c ∧ a ≠ .finishCancel c := by
  cases a with
  | getCancellationToken d =>
    obtain rfl := step_getCancellationToken hs
    exact ⟨hopen, fun _ ↦ ⟨nofun, nofun⟩⟩
  | registerCallback d t callback registered =>
    obtain ⟨-, rfl⟩ := step_registerCallback hs
    refine ⟨?_, fun _ ↦ ⟨nofun, nofun⟩⟩
    cases registered with
    | true => exact hopen
    | false => exact hopen
  | startCancel d =>
    obtain ⟨-, rfl⟩ := step_startCancel hs
    split at hopen
    · cases (isOpen_iff.1 hopen).2
    · exact absurd hopen ‹_›
  | runCallback d t callback =>
    obtain ⟨_, -, -, rfl⟩ := step_runCallback hs
    exact ⟨hopen, fun _ ↦ ⟨nofun, nofun⟩⟩
  | callbackReturns d t callback =>
    obtain ⟨_, -, rfl⟩ := step_callbackReturns hs
    exact ⟨hopen, fun _ ↦ ⟨nofun, nofun⟩⟩
  | finishCancel d =>
    obtain ⟨-, rfl⟩ := step_finishCancel hs
    cases (isOpen_iff.1 hopen).1
  | notify d =>
    obtain ⟨-, rfl⟩ := step_notify hs
    exact ⟨hopen, fun _ ↦ ⟨nofun, nofun⟩⟩
  | deregisterCallback d t returned =>
    obtain ⟨-, ⟨-, -, rfl⟩ | ⟨-, -, -, rfl⟩ | ⟨-, -, rfl⟩⟩ := step_deregisterCallback hs
    · exact ⟨hopen, fun _ ↦ ⟨nofun, nofun⟩⟩
    · exact ⟨hopen, fun _ ↦ ⟨nofun, nofun⟩⟩
    · exact ⟨hopen, fun _ ↦ ⟨nofun, nofun⟩⟩
  | stopWaiting d t =>
    obtain ⟨-, -, rfl⟩ := step_stopWaiting hs
    exact ⟨hopen, fun _ ↦ ⟨nofun, nofun⟩⟩

/-! ### Runs -/

/-- The callback of the token does not run. -/
def NeverRuns (token : CancellationToken) (as : List (Action C F)) : Prop :=
  token ∉ as.filterMap Action.runs?

/-- The callback has returned whenever the cancellation finishes. -/
def ReturnsFirst (token : CancellationToken) (f : F) (as : List (Action C F)) : Prop :=
  ∀ before c after, as = before ++ .finishCancel c :: after →
    ∃ d, .callbackReturns d token f ∈ before

/-- The callback is deregistered before the cancellation. -/
def Deregistered (token : CancellationToken) (as : List (Action C F)) : Prop :=
  ∃ before c after, as = before ++ .deregisterCallback c token (some true) :: after ∧
    ∀ d, .startCancel d ∉ before

omit [DecidableEq C] [DecidableEq F] in
theorem NeverRuns.cons (ha : a.runs? ≠ some token) (h : NeverRuns token as) :
    NeverRuns token (a :: as) := by
  intro hmem
  obtain ⟨b, hb, hruns⟩ := mem_filterMap.1 hmem
  obtain rfl | hb := mem_cons.1 hb
  · exact ha hruns
  · exact h (mem_filterMap.2 ⟨b, hb, hruns⟩)

omit [DecidableEq C] [DecidableEq F] in
theorem returnsFirst_nil : ReturnsFirst token f ([] : List (Action C F)) :=
  fun _ _ _ heq ↦ (append_ne_nil_of_right_ne_nil _ (cons_ne_nil _ _) heq.symm).elim

omit [DecidableEq C] [DecidableEq F] in
theorem ReturnsFirst.cons (ha : ∀ i, a ≠ .finishCancel i) (h : ReturnsFirst token f as) :
    ReturnsFirst token f (a :: as) := by
  rintro (- | ⟨b, before⟩) c after heq
  · exact (ha c (cons.inj heq).1).elim
  · obtain ⟨d, hd⟩ := h before c after (cons.inj heq).2
    exact ⟨d, mem_cons_of_mem b hd⟩

omit [DecidableEq C] [DecidableEq F] in
theorem returnsFirst_cons : ReturnsFirst token f (.callbackReturns c token f :: as) := by
  rintro (- | ⟨b, before⟩) d after heq
  · cases (cons.inj heq).1
  · obtain rfl := (cons.inj heq).1
    exact ⟨c, mem_cons_self⟩

theorem Inv.run (h : Inv s) (hrun : run CancellationManager.step s as = some s') : Inv s' :=
  run_invariant (fun _ hI hs ↦ Inv.step hI hs) h hrun

/-- The token is not registered. -/
def Unregistered (token : CancellationToken) (as : List (Action C F)) : Prop :=
  ∀ a ∈ as, a.registers? ≠ some token

theorem Gone.run (h : Gone token s) (hrun : run CancellationManager.step s as = some s')
    (has : Unregistered token as) : NeverRuns token as ∧ Gone token s' := by
  induction as generalizing s with
  | nil =>
    cases hrun
    exact ⟨not_mem_nil, h⟩
  | cons a as ih =>
    obtain ⟨u, hu, hrun⟩ := run_cons_eq_some.1 hrun
    obtain ⟨ha, has⟩ := forall_mem_cons.1 has
    obtain ⟨hruns, hgone⟩ := h.step hu ha
    obtain ⟨hnever, hgone'⟩ := ih hgone hrun has
    exact ⟨hnever.cons hruns, hgone'⟩

theorem Running.run (h : Running c token f s) (hinv : Inv s)
    (hrun : run CancellationManager.step s as = some s') (has : Unregistered token as) :
    NeverRuns token as ∧ ReturnsFirst token f as ∧
      (.callbackReturns c token f ∈ as ∨ Running c token f s') := by
  induction as generalizing s with
  | nil =>
    cases hrun
    exact ⟨not_mem_nil, returnsFirst_nil, .inr h⟩
  | cons a as ih =>
    obtain ⟨u, hu, hrun'⟩ := run_cons_eq_some.1 hrun
    obtain ⟨-, has'⟩ := forall_mem_cons.1 has
    obtain ⟨rfl, hgone⟩ | ⟨hrunning, hruns, hfinish⟩ := h.step hinv hu
    · exact ⟨(hgone.run hrun' has').1.cons nofun, returnsFirst_cons, .inl mem_cons_self⟩
    · obtain ⟨hnever, hfirst, hreturns⟩ := ih hrunning (hinv.step hu) hrun' has'
      exact ⟨hnever.cons hruns, hfirst.cons hfinish, hreturns.imp_left (mem_cons_of_mem a)⟩

/-- The callback of the token runs at most once. -/
def RunsOnce (token : CancellationToken) (as : List (Action C F)) : Prop :=
  (as.filterMap Action.runs?).count token ≤ 1

omit [DecidableEq C] [DecidableEq F] in
theorem NeverRuns.runsOnce (h : NeverRuns token as) : RunsOnce token as :=
  Nat.le_trans (Nat.le_of_eq (count_eq_zero.2 h)) (Nat.zero_le 1)

omit [DecidableEq C] [DecidableEq F] in
theorem RunsOnce.cons (ha : a.runs? ≠ some token) (h : RunsOnce token as) :
    RunsOnce token (a :: as) := by
  unfold RunsOnce at h ⊢
  rw [filterMap_cons]
  split
  · exact h
  · rename_i t ht
    rwa [count_cons_of_ne fun heq ↦ ha (ht.trans (congrArg some heq))]

omit [DecidableEq C] [DecidableEq F] in
theorem NeverRuns.runsOnce_cons (h : NeverRuns token as) :
    RunsOnce token (.runCallback c token f :: as) := by
  have hcount : (token :: as.filterMap Action.runs?).count token = 1 := by
    rw [count_cons_self, count_eq_zero.2 h]
  exact Nat.le_of_eq hcount

theorem Scheduled.run (h : Scheduled c token f s) (hinv : Inv s)
    (hrun : run CancellationManager.step s as = some s') (has : Unregistered token as) :
    RunsOnce token as ∧ ReturnsFirst token f as := by
  induction as generalizing s with
  | nil => exact ⟨Nat.zero_le 1, returnsFirst_nil⟩
  | cons a as ih =>
    obtain ⟨u, hu, hrun'⟩ := run_cons_eq_some.1 hrun
    obtain ⟨-, has'⟩ := forall_mem_cons.1 has
    obtain ⟨rfl, hrunning⟩ | ⟨hscheduled, hruns, hfinish⟩ := h.step hinv hu
    · obtain ⟨hnever, hfirst, -⟩ := hrunning.run (hinv.step hu) hrun' has'
      exact ⟨hnever.runsOnce_cons, hfirst.cons nofun⟩
    · obtain ⟨honce, hfirst⟩ := ih hscheduled (hinv.step hu) hrun' has'
      exact ⟨honce.cons hruns, hfirst.cons hfinish⟩

/-- A registered callback is deregistered before the cancellation, or it returns before the
cancellation finishes. -/
theorem Registered.run (h : Registered token f s) (hinv : Inv s)
    (hrun : run CancellationManager.step s as = some s') (has : Unregistered token as) :
    RunsOnce token as ∧ (Deregistered token as ∧ NeverRuns token as ∨ ReturnsFirst token f as) := by
  induction as generalizing s with
  | nil => exact ⟨Nat.zero_le 1, .inr returnsFirst_nil⟩
  | cons a as ih =>
    obtain ⟨u, hu, hrun'⟩ := run_cons_eq_some.1 hrun
    obtain ⟨ha, has'⟩ := forall_mem_cons.1 has
    obtain ⟨⟨d, rfl⟩, hgone⟩ | ⟨d, rfl, hscheduled⟩ | ⟨hregistered, hruns, hstart, hfinish⟩ :=
      h.step hinv hu ha
    · have hnever :=
        (hgone.run hrun' has').1.cons (a := .deregisterCallback d token (some true)) nofun
      exact ⟨hnever.runsOnce, .inl ⟨⟨[], d, as, rfl, fun _ ↦ not_mem_nil⟩, hnever⟩⟩
    · obtain ⟨honce, hfirst⟩ := hscheduled.run (hinv.step hu) hrun' has'
      exact ⟨honce.cons nofun, .inr (hfirst.cons nofun)⟩
    · obtain ⟨honce, ⟨⟨before, d, after, rfl, hbefore⟩, hnever⟩ | hfirst⟩ :=
        ih hregistered (hinv.step hu) hrun' has'
      · refine ⟨honce.cons hruns, .inl ⟨⟨a :: before, d, after, rfl, fun e he ↦ ?_⟩,
          hnever.cons hruns⟩⟩
        obtain heq | he := mem_cons.1 he
        · exact hstart e heq.symm
        · exact hbefore e he
      · exact ⟨honce.cons hruns, .inr (hfirst.cons hfinish)⟩

/-- As long as callbacks can be registered, nobody has started to cancel. -/
theorem not_startCancel_of_isOpen (hrun : run CancellationManager.step s as = some s')
    (hs : s'.isOpen = true) :
    s.isOpen = true ∧ ∀ c, .startCancel c ∉ as ∧ .finishCancel c ∉ as := by
  induction as generalizing s with
  | nil =>
    cases hrun
    exact ⟨hs, fun c ↦ ⟨not_mem_nil, not_mem_nil⟩⟩
  | cons a as ih =>
    obtain ⟨u, hu, hrun'⟩ := run_cons_eq_some.1 hrun
    obtain ⟨huopen, has⟩ := ih hrun'
    obtain ⟨hsopen, ha⟩ := isOpen_of_step hu huopen
    refine ⟨hsopen, fun c ↦ ⟨fun hmem ↦ ?_, fun hmem ↦ ?_⟩⟩
    · obtain heq | hmem := mem_cons.1 hmem
      · exact (ha c).1 heq.symm
      · exact (has c).1 hmem
    · obtain heq | hmem := mem_cons.1 hmem
      · exact (ha c).2 heq.symm
      · exact (has c).2 hmem

/-! ### The guarantees -/

variable {before after : List (Action C F)}

omit [DecidableEq C] [DecidableEq F] in
theorem NeverRuns.append (h : NeverRuns token before) (h' : NeverRuns token after) :
    NeverRuns token (before ++ after) := by
  unfold NeverRuns
  rw [filterMap_append, mem_append, not_or]
  exact ⟨h, h'⟩

omit [DecidableEq C] [DecidableEq F] in
theorem NeverRuns.append_runsOnce (h : NeverRuns token before) (h' : RunsOnce token after) :
    RunsOnce token (before ++ after) := by
  unfold RunsOnce
  rw [filterMap_append, count_append, count_eq_zero.2 h, Nat.zero_add]
  exact h'

omit [DecidableEq C] [DecidableEq F] in
theorem ReturnsFirst.append (h : ∀ c, .finishCancel c ∉ before) (h' : ReturnsFirst token f after) :
    ReturnsFirst token f (before ++ after) := by
  induction before with
  | nil => exact h'
  | cons a before ih =>
    refine (ih fun c hc ↦ h c (mem_cons_of_mem a hc)).cons fun c heq ↦ h c ?_
    exact heq ▸ mem_cons_self

omit [DecidableEq C] [DecidableEq F] in
theorem Deregistered.append (h : ∀ c, .startCancel c ∉ before) (h' : Deregistered token after) :
    Deregistered token (before ++ after) := by
  obtain ⟨before', c, after', rfl, hbefore'⟩ := h'
  refine ⟨before ++ before', c, after', (append_assoc ..).symm, fun d hd ↦ ?_⟩
  obtain hd | hd := mem_append.1 hd
  · exact h d hd
  · exact hbefore' d hd

omit [DecidableEq C] [DecidableEq F] in
theorem unregistered_iff : Unregistered token as ↔ token ∉ as.filterMap Action.registers? := by
  rw [mem_filterMap]
  exact ⟨fun h ⟨a, ha, hreg⟩ ↦ h a ha hreg, fun h a ha hreg ↦ h ⟨a, ha, hreg⟩⟩

omit [DecidableEq C] [DecidableEq F] in
/-- The only registration of a token. -/
theorem unregistered_of_nodup (ha : a.registers? = some token)
    (honce : ((before ++ a :: after).filterMap Action.registers?).Nodup) :
    Unregistered token before ∧ Unregistered token after := by
  rw [filterMap_append, filterMap_cons_some ha, nodup_append] at honce
  obtain ⟨-, hafter, hdisjoint⟩ := honce
  refine ⟨unregistered_iff.2 fun hmem ↦ ?_, unregistered_iff.2 (nodup_cons.1 hafter).1⟩
  exact hdisjoint token hmem token mem_cons_self rfl

/-- What the manager guarantees in a run. -/
structure Guarantees (as : List (Action C F)) : Prop where
  once : ∀ token, RunsOnce token as
  registered : ∀ c token f, .registerCallback c token f true ∈ as →
    Deregistered token as ∧ NeverRuns token as ∨ ReturnsFirst token f as
  refused : ∀ c token f, .registerCallback c token f false ∈ as → NeverRuns token as
  notRunning : ∀ before a after token, as = before ++ a :: after → a.deregisters? = some token →
    ∀ c f, .runCallback c token f ∈ before → .callbackReturns c token f ∈ before
  neverAfter : ∀ before a after token, as = before ++ a :: after → a.deregisters? = some token →
    ¬ Unregistered token before → NeverRuns token after

/-- A callback that is registered runs once at most. -/
theorem registered_of_run
    (hrun : run step init (before ++ .registerCallback c token f true :: after) = some s)
    (hbefore : Unregistered token before) (hafter : Unregistered token after) :
    RunsOnce token (before ++ .registerCallback c token f true :: after) ∧
      (Deregistered token (before ++ .registerCallback c token f true :: after) ∧
        NeverRuns token (before ++ .registerCallback c token f true :: after) ∨
        ReturnsFirst token f (before ++ .registerCallback c token f true :: after)) := by
  obtain ⟨u, hu, hrun'⟩ := run_append_eq_some.1 hrun
  obtain ⟨v, hv, hrun'⟩ := run_cons_eq_some.1 hrun'
  have hinv : Inv u := inv_init.run hu
  have hnever := (gone_init.run hu hbefore).1
  obtain ⟨hopen, hvu⟩ := step_registerCallback hv
  have hreg : Registered token f v := by
    rw [hvu]
    exact ⟨hopen.symm, get?_set_self⟩
  obtain ⟨-, hearly⟩ := not_startCancel_of_isOpen hu hopen.symm
  obtain ⟨honce, hlife⟩ := hreg.run (hinv.step hv) hrun' hafter
  refine ⟨hnever.append_runsOnce (honce.cons nofun), ?_⟩
  obtain ⟨⟨before', d, after', rfl, hstart⟩, hafter'⟩ | hfirst := hlife
  · refine .inl ⟨.append (fun e ↦ (hearly e).1) ⟨_ :: before', d, after', rfl, fun e he ↦ ?_⟩,
      hnever.append (hafter'.cons nofun)⟩
    obtain heq | he := mem_cons.1 he
    · cases heq
    · exact hstart e he
  · exact .inr (.append (fun e ↦ (hearly e).2) (hfirst.cons nofun))

/-- A callback that is refused never runs. -/
theorem refused_of_run
    (hrun : run step init (before ++ .registerCallback c token f false :: after) = some s)
    (hbefore : Unregistered token before) (hafter : Unregistered token after) :
    NeverRuns token (before ++ .registerCallback c token f false :: after) := by
  obtain ⟨u, hu, hrun'⟩ := run_append_eq_some.1 hrun
  obtain ⟨v, hv, hrun''⟩ := run_cons_eq_some.1 hrun'
  obtain ⟨hnever, hgone⟩ := gone_init.run hu hbefore
  obtain ⟨-, hvu⟩ := step_registerCallback hv
  obtain rfl : v = u := hvu
  exact hnever.append ((hgone.run hrun'' hafter).1.cons nofun)

omit [DecidableEq C] [DecidableEq F] in
/-- A token that has been registered is not registered again. -/
theorem unregistered_after (hbefore : ¬ Unregistered token before)
    (honce : ((before ++ after).filterMap Action.registers?).Nodup) : Unregistered token after := by
  rw [unregistered_iff, not_not] at hbefore
  rw [filterMap_append, nodup_append] at honce
  exact unregistered_iff.2 fun hmem ↦ honce.2.2 token hbefore token hmem rfl

/-- When the token is gone, its callback has returned if it has run. -/
theorem returns_of_gone (hrun : run step init as = some s) (hgone : Gone token s)
    (honce : (as.filterMap Action.registers?).Nodup) (hmem : .runCallback c token f ∈ as) :
    .callbackReturns c token f ∈ as := by
  obtain ⟨before, after, rfl⟩ := append_of_mem hmem
  obtain ⟨u, hu, hrun'⟩ := run_append_eq_some.1 hrun
  obtain ⟨v, hv, hrun''⟩ := run_cons_eq_some.1 hrun'
  have hinv : Inv u := inv_init.run hu
  have hbefore : ¬ Unregistered token before := by
    intro hun
    obtain ⟨-, hgone'⟩ := gone_init.run hu hun
    exact (hgone'.step hv nofun).1 rfl
  have hafter := unregistered_after hbefore honce
  obtain ⟨callbacksToRun, -, -, hvu⟩ := step_runCallback hv
  have hrunning : Running c token f v := by
    rw [hvu]
    exact ⟨_, client_setClient_self, get?_erase_self⟩
  obtain ⟨-, -, hreturns | ⟨rest, hc, -⟩⟩ :=
    hrunning.run (hinv.step hv) hrun'' fun b hb ↦ hafter b (mem_cons_of_mem _ hb)
  · exact mem_append_right before (mem_cons_of_mem _ hreturns)
  · have hwithout : (Client.cancelling rest (some (token, f))).Without token := hc ▸ hgone.client c
    exact (hwithout.2 f rfl).elim

/-- **The guarantees of the manager**, in every run that registers each token at most once. -/
theorem guarantees_of_run (as : List (Action C F)) (s : CancellationManager C F)
    (hrun : run step init as = some s) (honce : (as.filterMap Action.registers?).Nodup) :
    Guarantees as where
  once token := by
    by_cases has : Unregistered token as
    · exact (gone_init.run hrun has).1.runsOnce
    · rw [unregistered_iff, not_not] at has
      obtain ⟨a, ha, hreg⟩ := mem_filterMap.1 has
      obtain ⟨before, after, rfl⟩ := append_of_mem ha
      obtain ⟨hbefore, hafter⟩ := unregistered_of_nodup hreg honce
      cases a with
      | registerCallback c t f registered =>
        obtain rfl : t = token := Option.some.inj hreg
        cases registered with
        | true => exact (registered_of_run hrun hbefore hafter).1
        | false => exact (refused_of_run hrun hbefore hafter).runsOnce
      | _ => cases hreg
  registered c token f hmem := by
    obtain ⟨before, after, rfl⟩ := append_of_mem hmem
    obtain ⟨hbefore, hafter⟩ := unregistered_of_nodup rfl honce
    exact (registered_of_run hrun hbefore hafter).2
  refused c token f hmem := by
    obtain ⟨before, after, rfl⟩ := append_of_mem hmem
    obtain ⟨hbefore, hafter⟩ := unregistered_of_nodup rfl honce
    exact refused_of_run hrun hbefore hafter
  notRunning before a after token heq ha c f hmem := by
    subst heq
    obtain ⟨u, hu, hrun'⟩ := run_append_eq_some.1 hrun
    obtain ⟨v, hv, -⟩ := run_cons_eq_some.1 hrun'
    have hgone : Gone token v := (inv_init.run hu).gone_of_deregisters hv ha
    have hrunv : run step init (before ++ [a]) = some v :=
      run_append_eq_some.2 ⟨u, hu, run_cons_eq_some.2 ⟨v, hv, rfl⟩⟩
    have honcev : ((before ++ [a]).filterMap Action.registers?).Nodup := by
      rw [append_cons, filterMap_append] at honce
      exact (nodup_append.1 honce).1
    have hreturns := returns_of_gone hrunv hgone honcev (mem_append_left [a] hmem)
    obtain hreturns | hlast := mem_append.1 hreturns
    · exact hreturns
    · obtain rfl := mem_singleton.1 hlast
      cases ha
  neverAfter before a after token heq ha hbefore := by
    subst heq
    obtain ⟨u, hu, hrun'⟩ := run_append_eq_some.1 hrun
    obtain ⟨v, hv, hrun''⟩ := run_cons_eq_some.1 hrun'
    have hgone : Gone token v := (inv_init.run hu).gone_of_deregisters hv ha
    have hafter := unregistered_after hbefore honce
    exact (hgone.run hrun'' fun b hb ↦ hafter b (mem_cons_of_mem a hb)).1

/-- Two clients: the second one deregisters while the first one runs the callback. -/
theorem guarantees_of_run_twoClients : Guarantees (C := Bool) (F := ℕ)
    [.getCancellationToken true, .registerCallback true 0 7 true, .startCancel false,
      .runCallback false 0 7,
      .deregisterCallback true 0 none, .callbackReturns false 0 7, .finishCancel false,
      .notify false,
      .stopWaiting true 0] :=
  guarantees_of_run _ _ rfl (by decide)

/-- A token that is deregistered before it is registered: its callback runs after
`DeregisterCallback` has returned. -/
theorem not_neverRuns_deregistered :
    ¬ ∀ (as : List (Action Bool ℕ)) (s : CancellationManager Bool ℕ),
    run step init as = some s → (as.filterMap Action.registers?).Nodup →
    ∀ before a after token, as = before ++ a :: after → a.deregisters? = some token →
    NeverRuns token after := by
  intro h
  refine h [.getCancellationToken true, .deregisterCallback true 0 (some true),
    .registerCallback true 0 7 true,
    .startCancel false, .runCallback false 0 7] _ rfl (by decide) [.getCancellationToken true]
    (.deregisterCallback true 0 (some true)) _ 0 rfl rfl ?_
  decide

end TensorFlowCore.CancellationManager
