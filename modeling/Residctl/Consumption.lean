import Residctl.ReplayEnds

/-!
# The exact consumption signal

With `--consumption-signal all-threads` the thread that completes a step signals it,
outside `la->lock`, while others may be steps ahead. The calls are still one after the
other and in step order: the next step is not complete before the signalling thread has
finished it, which it does after its call has returned.
-/

namespace Residctl.Replay

open Runs Steps Function

variable {n : ℕ} {a : Args n} {s s' : State a} {t u : Fin a.nThreads} {k m : ℕ} {p : Pc}

/-- The calls of `pager_notify_access` in all-threads mode: one for each step in step
order, none before the step is complete, none before the previous one has returned, so
that the position of `layer_order_declared` is the last signalled chunk. After the joins, which
every run can be continued to, every step was signalled once, and the final check passes. -/
structure ExactSignal (s : State a) : Prop where
  called : s.called = List.range s.called.length
  returned : s.returned = List.range s.returned.length
  serial : s.returned.length ≤ s.called.length ∧ s.called.length ≤ s.returned.length + 1
  consumed : ∀ k ∈ s.called, k < a.nPasses * n ∧ s.Complete k
  position : s.policy.pos =
    if s.called.length = 0 then -1 else (((s.called.length - 1) % n : ℕ) : ℤ)
  joined : s.Joined → s.returned = List.range (a.nPasses * n) ∧
    s.result = some ⟨a.nPasses, a.nPasses * n, s.bytesTouched⟩
  ends : ∃ (ts : List (Fin a.nThreads)) (s' : State a),
    run (driver a) (ts.map Action.step) s = some s' ∧ s'.Joined

/-! ## The front -/

/-- The number of complete steps: nobody is behind it and somebody is at it. -/
def State.Front (s : State a) (m : ℕ) : Prop :=
  (∀ t, m ≤ s.position t) ∧ ∃ t, s.position t = m

theorem State.Front.congr (h : s.Front m) (hpos : s'.position = s.position) : s'.Front m := by
  unfold State.Front
  rw [hpos]
  exact h

/-- Marking a step done without completing it leaves the front where it is. -/
theorem State.Front.mark (h : s.Front m) (hinv : s.Inv) (hpc : s.pc t = .markDone k)
    (hlast : s.completed k + 1 ≠ a.nThreads) : (s.mark t k).Front m := by
  have hat : s.position t = k := by rw [State.position, hpc]; rfl
  have hle := h.1 t
  -- somebody else has not finished step `k` either
  have hbehind : ∃ u, u ≠ t ∧ s.position u ≤ k := by
    by_contra hall
    push Not at hall
    apply hlast
    have hfull : (s.mark t k).Full k := by
      refine (hinv.mark hpc).full_iff.2 fun u => ?_
      rw [State.mark_position hpc]
      by_cases hu : u = t
      · rw [hu, update_self]
        exact Nat.lt_succ_self k
      · rw [update_of_ne hu]
        exact hall u hu
    have hbound := finished_le_card (s.mark t k).position k
    rw [← (hinv.mark hpc).completed, Fintype.card_fin] at hbound
    unfold State.Full at hfull
    rw [State.mark_completed, update_self] at hbound hfull
    exact le_antisymm hbound hfull
  refine ⟨fun u => ?_, ?_⟩
  · rw [State.mark_position hpc]
    by_cases hu : u = t
    · rw [hu, update_self]
      omega
    · rw [update_of_ne hu]
      exact h.1 u
  · obtain ⟨v, hv⟩ := h.2
    rw [State.mark_position hpc]
    by_cases hvt : v = t
    · obtain ⟨u, hu, huk⟩ := hbehind
      refine ⟨u, ?_⟩
      have hge := h.1 u
      rw [hvt] at hv
      rw [update_of_ne hu]
      omega
    · exact ⟨v, by rw [update_of_ne hvt, hv]⟩

/-- When a thread completes a step, it was alone in not having finished it. -/
theorem State.Inv.front_of_last (h : s.Inv) (hpc : s.pc t = .markDone k)
    (hlast : s.completed k + 1 = a.nThreads) :
    (∀ u, u ≠ t → k < s.position u) ∧ (s.mark t k).Front (k + 1) := by
  have hfull : (s.mark t k).Full k := by
    unfold State.Full
    rw [State.mark_completed, update_self, hlast]
  have hall := (h.mark hpc).full_iff.1 hfull
  rw [State.mark_position hpc] at hall
  constructor
  · intro u hu
    have hlt := hall u
    rwa [update_of_ne hu] at hlt
  · refine ⟨fun u => ?_, t, ?_⟩
    · rw [State.mark_position hpc]
      exact hall u
    · rw [State.mark_position hpc, update_self]

theorem State.Front.unique {m' : ℕ} (h : s.Front m) (h' : s.Front m') : m = m' := by
  obtain ⟨t, ht⟩ := h.2
  obtain ⟨u, hu⟩ := h'.2
  have htm := h'.1 t
  have hum := h.1 u
  omega

/-! ## One signal at a time -/

/-- The thread is in a call of `pager_notify_access`. -/
def Pc.Signals : Pc → Prop
  | .signal _ _ | .notify _ _ => True
  | _ => False

/-- What the log says when the front is at `m`: nobody is signalling and all complete
steps were signalled, or one thread is signalling the last complete step. -/
inductive State.Signalling (s : State a) (m : ℕ) : Prop
  | idle (hpc : ∀ t, ¬ (s.pc t).Signals) (hcalled : s.called = List.range m)
      (hreturned : s.returned = List.range m)
  | entered (t : Fin a.nThreads) (k : ℕ) (hm : m = k + 1) (hpc : s.pc t = .notify k .entered)
      (hother : ∀ u, u ≠ t → ¬ (s.pc u).Signals) (hcalled : s.called = List.range k)
      (hreturned : s.returned = List.range k)
  | accessed (t : Fin a.nThreads) (k : ℕ) (hm : m = k + 1) (hpc : s.pc t = .notify k .accessed)
      (hother : ∀ u, u ≠ t → ¬ (s.pc u).Signals) (hcalled : s.called = List.range (k + 1))
      (hreturned : s.returned = List.range k)

/-- The log, the counter and the policy agree with the front. -/
structure State.SignalInv (s : State a) (m : ℕ) : Prop where
  front : s.Front m
  signalling : s.Signalling m
  notifyCount : s.notifyCount = m
  policy : s.policy = declaredAfter n (List.range n) s.called.length

theorem Pc.signals_woken (p : Pc) : p.woken.Signals ↔ p.Signals := by
  cases p <;> exact Iff.rfl

theorem State.not_signals_afterMark (t : Fin a.nThreads) (k : ℕ) :
    ¬ (State.afterMark t k).Signals := by
  unfold State.afterMark
  split <;> exact id

/-- The log of signals. -/
structure State.SameLog (s s' : State a) : Prop where
  called : s'.called = s.called
  returned : s'.returned = s.returned
  notifyCount : s'.notifyCount = s.notifyCount
  policy : s'.policy = s.policy

/-- Outside a signal and the completion of a step a thread neither touches the log nor
begins a signal. -/
theorem State.exec_quiet (ha : a.consumptionSignalAll = true) (h : s.exec t = some s')
    (hmark : ∀ k, s.pc t ≠ .markDone k) (hsig : ¬ (s.pc t).Signals) :
    s.SameLog s' ∧ ¬ (s'.pc t).Signals := by
  have hgoto : ∀ (s₁ : State a) (q : Pc), ¬ q.Signals → s.SameLog s₁ →
      s.SameLog (s₁.goto t q) ∧ ¬ ((s₁.goto t q).pc t).Signals := by
    intro s₁ q hq hs₁
    refine ⟨⟨hs₁.called, hs₁.returned, hs₁.notifyCount, hs₁.policy⟩, ?_⟩
    show ¬ (update s₁.pc t q t).Signals
    rwa [update_self]
  have hrefl : s.SameLog s := ⟨rfl, rfl, rfl, rfl⟩
  obtain ⟨p, hpc, hbranch⟩ := State.exec_branch h
  rw [hpc] at hsig
  cases hbranch with
  | signalFirst _ _ hzero => exact absurd ha hzero.2
  | start | sleepToStart | ended | full | sleepFull => exact hgoto s _ id hrefl
  | access | release | notifyAccess | notifyRelease => exact absurd trivial hsig
  | readPage _ =>
    unfold State.readPage
    split
    · exact hgoto (s.touch t _ _) _ id ⟨rfl, rfl, rfl, rfl⟩
    · exact hgoto s _ id hrefl
  | readDone _ => exact hgoto (s.setMyBytes t _ _) _ id ⟨rfl, rfl, rfl, rfl⟩
  | compute =>
    refine hgoto (s.computeBusy _) _ id ?_
    unfold State.computeBusy
    split <;> exact ⟨rfl, rfl, rfl, rfl⟩
  | @markDone k => exact absurd hpc (hmark k)
  | record =>
    refine hgoto (s.recordRef _) _ id ?_
    unfold State.recordRef
    dsimp only
    split <;> exact ⟨rfl, rfl, rfl, rfl⟩

/-- The signalling threads and the log are the same in both states. -/
theorem State.Signalling.congr (h : s.Signalling m) (hlog : s.SameLog s')
    (hpc : ∀ u, s'.pc u = s.pc u ∨ ¬ (s.pc u).Signals ∧ ¬ (s'.pc u).Signals) :
    s'.Signalling m := by
  have hquiet : ∀ u, ¬ (s.pc u).Signals → ¬ (s'.pc u).Signals := by
    intro u hu
    rcases hpc u with heq | hne
    · rwa [heq]
    · exact hne.2
  have hsame : ∀ u q, q.Signals → s.pc u = q → s'.pc u = q := by
    intro u q hq hu
    rcases hpc u with heq | hne
    · rw [heq, hu]
    · rw [hu] at hne
      exact absurd hq hne.1
  cases h with
  | idle hidle hcalled hreturned =>
    exact .idle (fun u => hquiet u (hidle u)) (hlog.called.trans hcalled)
      (hlog.returned.trans hreturned)
  | entered t k hm ht hother hcalled hreturned =>
    exact .entered t k hm (hsame t _ trivial ht) (fun u hu => hquiet u (hother u hu))
      (hlog.called.trans hcalled) (hlog.returned.trans hreturned)
  | accessed t k hm ht hother hcalled hreturned =>
    exact .accessed t k hm (hsame t _ trivial ht) (fun u hu => hquiet u (hother u hu))
      (hlog.called.trans hcalled) (hlog.returned.trans hreturned)

/-- A signalling thread stands at the front. -/
theorem State.Signalling.idle_or (h : s.Signalling m) :
    ((∀ t, ¬ (s.pc t).Signals) ∧ s.called = List.range m ∧ s.returned = List.range m) ∨
      ∃ t, (s.pc t).Signals ∧ s.position t = m := by
  cases h with
  | idle hidle hcalled hreturned => exact Or.inl ⟨hidle, hcalled, hreturned⟩
  | entered t k hm hpc =>
    refine Or.inr ⟨t, by rw [hpc]; trivial, ?_⟩
    rw [State.position, hpc, hm]
    rfl
  | accessed t k hm hpc =>
    refine Or.inr ⟨t, by rw [hpc]; trivial, ?_⟩
    rw [State.position, hpc, hm]
    rfl

theorem State.SignalInv.congr (h : s.SignalInv m) (hlog : s.SameLog s') (hfront : s'.Front m)
    (hpc : ∀ u, s'.pc u = s.pc u ∨ ¬ (s.pc u).Signals ∧ ¬ (s'.pc u).Signals) :
    s'.SignalInv m where
  front := hfront
  signalling := h.signalling.congr hlog hpc
  notifyCount := hlog.notifyCount.trans h.notifyCount
  policy := by rw [hlog.policy, hlog.called, h.policy]

/-! ## The invariant -/

/-- The signal for step `k` is the one that the declared sequence puts at this place. -/
theorem declaredAfter_range_succ (hn : 0 < n) (k : ℕ) :
    loDeclaredOnAccess (declaredAfter n (List.range n) k) (k % n) =
      declaredAfter n (List.range n) (k + 1) := by
  have hlen : (List.range n).length = n := List.length_range
  have hk := Nat.mod_lt k hn
  have hseq : (declaredAfter n (List.range n) k).seqAt k = k % n := by
    rw [LoDeclared.seqAt, declaredAfter_seq, Cyclic.repeated, hlen,
      List.getD_eq_getElem _ _ (by rwa [hlen]), List.getElem_range]
  show _ = loDeclaredOnAccess (declaredAfter n (List.range n) k)
    ((declaredAfter n (List.range n) k).seqAt k)
  rw [hseq]

/-- A chunk that is read in some step exists. -/
theorem Args.pos_of_lt (hk : k < a.totalSteps) : 0 < n := by
  rcases Nat.eq_zero_or_pos n with rfl | hn
  · simp [Args.totalSteps] at hk
  · exact hn

theorem State.SignalInv.mark (h : s.SignalInv m) (hinv : s.Inv)
    (ha : a.consumptionSignalAll = true) (hpc : s.pc t = .markDone k) :
    ∃ m, (s.mark t k).SignalInv m := by
  have hquiet : ¬ (s.pc t).Signals := by
    rw [hpc]
    exact id
  by_cases hlast : s.completed k + 1 = a.nThreads
  · -- the thread completes the step: it was alone at the front, and nobody was signalling
    obtain ⟨hothers, hfront⟩ := hinv.front_of_last hpc hlast
    have hat : s.position t = k := by rw [State.position, hpc]; rfl
    obtain rfl : m = k := by
      have hle := h.front.1 t
      obtain ⟨v, hv⟩ := h.front.2
      by_cases hvt : v = t
      · rw [hvt] at hv
        omega
      · have hlt := hothers v hvt
        omega
    have hmark : (s.mark t m).called = s.called ∧ (s.mark t m).returned = s.returned ∧
        (s.mark t m).policy = s.policy ∧ (s.mark t m).notifyCount = s.notifyCount + 1 := by
      unfold State.mark
      dsimp only
      rw [if_pos (by rw [update_self]; exact hlast), if_pos ha]
      exact ⟨rfl, rfl, rfl, rfl⟩
    obtain ⟨hcalled, hreturned, hpolicy, hcount⟩ := hmark
    have hpc' := State.mark_pc_of_last (t := t) hlast
    obtain ⟨hidle, hc, hr⟩ : (∀ u, ¬ (s.pc u).Signals) ∧ s.called = List.range m ∧
        s.returned = List.range m := by
      rcases h.signalling.idle_or with hidle | ⟨v, hv, hvm⟩
      · exact hidle
      · by_cases hvt : v = t
        · rw [hvt] at hv
          exact absurd hv hquiet
        · have hlt := hothers v hvt
          omega
    refine ⟨m + 1, hfront, .entered t m rfl ?_ (fun u hu => ?_) (hcalled.trans hc)
      (hreturned.trans hr), by rw [hcount, h.notifyCount], ?_⟩
    · rw [hpc', update_self, State.afterComplete, if_pos ha]
    · rw [hpc', update_of_ne hu, Pc.signals_woken]
      exact hidle u
    · rw [hpolicy, hcalled, h.policy]
  · have hlog : s.SameLog (s.mark t k) := by
      unfold State.mark
      dsimp only
      rw [if_neg (by rw [update_self]; exact hlast)]
      exact ⟨rfl, rfl, rfl, rfl⟩
    refine ⟨m, h.congr hlog (h.front.mark hinv hpc hlast) fun u => ?_⟩
    rw [State.mark_pc_of_not_last hlast]
    by_cases hu : u = t
    · subst hu
      rw [update_self]
      exact Or.inr ⟨hquiet, State.not_signals_afterMark _ _⟩
    · rw [update_of_ne hu]
      exact Or.inl rfl

/-- The first half of a signal. -/
theorem State.SignalInv.access (h : s.SignalInv m) (hinv : s.Inv)
    (hpc : s.pc t = .notify k .entered) :
    ((s.access k).goto t (.notify k .accessed)).SignalInv m := by
  have hk : k < a.totalSteps := by
    have hb := hinv.bounded t
    rwa [hpc] at hb
  have hsig : (s.pc t).Signals := by
    rw [hpc]
    trivial
  have hpos : ((s.access k).goto t (.notify k .accessed)).position = s.position := by
    funext u
    show (update s.pc t _ u).finished a = (s.pc u).finished a
    by_cases hu : u = t
    · subst hu
      rw [update_self, hpc]
      rfl
    · rw [update_of_ne hu]
  cases h.signalling with
  | idle hidle => exact absurd hsig (hidle t)
  | entered v j hm hv hother hcalled hreturned =>
    obtain rfl : t = v := by
      by_contra hne
      exact hother t hne hsig
    obtain rfl : k = j := by
      rw [hpc] at hv
      cases hv
      rfl
    refine ⟨h.front.congr hpos, .accessed t k hm ?_ (fun u hu => ?_) ?_ hreturned, h.notifyCount, ?_⟩
    · show update s.pc t _ t = _
      rw [update_self]
    · show ¬ (update s.pc t _ u).Signals
      rw [update_of_ne hu]
      exact hother u hu
    · show s.called ++ [k] = _
      rw [hcalled, List.range_succ]
    · show loDeclaredOnAccess s.policy (k % n) = declaredAfter n (List.range n) (s.called ++ [k]).length
      rw [h.policy, hcalled, List.length_append, List.length_range, List.length_singleton]
      exact declaredAfter_range_succ (Args.pos_of_lt hk) k
  | accessed v j hm hv hother =>
    obtain rfl : t = v := by
      by_contra hne
      exact hother t hne hsig
    rw [hpc] at hv
    cases hv

/-- The second half. -/
theorem State.SignalInv.release (h : s.SignalInv m) (hpc : s.pc t = .notify k .accessed) :
    ((s.release k).goto t (State.afterMark t k)).SignalInv m := by
  have hsig : (s.pc t).Signals := by
    rw [hpc]
    trivial
  have hpos : ((s.release k).goto t (State.afterMark t k)).position = s.position := by
    funext u
    show (update s.pc t _ u).finished a = (s.pc u).finished a
    by_cases hu : u = t
    · subst hu
      rw [update_self, hpc]
      exact State.finished_afterMark u k
    · rw [update_of_ne hu]
  cases h.signalling with
  | idle hidle => exact absurd hsig (hidle t)
  | entered v j hm hv hother =>
    obtain rfl : t = v := by
      by_contra hne
      exact hother t hne hsig
    rw [hpc] at hv
    cases hv
  | accessed v j hm hv hother hcalled hreturned =>
    obtain rfl : t = v := by
      by_contra hne
      exact hother t hne hsig
    obtain rfl : k = j := by
      rw [hpc] at hv
      cases hv
      rfl
    refine ⟨h.front.congr hpos, .idle (fun u => ?_) ?_ ?_, h.notifyCount, h.policy⟩
    · show ¬ (update s.pc t _ u).Signals
      by_cases hu : u = t
      · subst hu
        rw [update_self]
        exact State.not_signals_afterMark u k
      · rw [update_of_ne hu]
        exact hother u hu
    · rw [hm]
      exact hcalled
    · show s.returned ++ [k] = _
      rw [hreturned, hm, List.range_succ]

theorem State.SignalInv.exec (h : s.SignalInv m) (hinv : s.Inv)
    (ha : a.consumptionSignalAll = true) (hs : s.exec t = some s') : ∃ m, s'.SignalInv m := by
  rcases State.exec_cases (hinv.bounded t) hs with ⟨k, hpc, rfl⟩ | ⟨p, hadv⟩
  · exact h.mark hinv ha hpc
  · by_cases hsig : (s.pc t).Signals
    · -- only the signalling thread of the invariant is in a call
      cases hpc : s.pc t with
      | signal k c =>
        cases h.signalling with
        | idle hidle => exact absurd hsig (hidle t)
        | entered v j hm hv hother =>
          by_cases htv : t = v
          · rw [← htv, hpc] at hv
            cases hv
          · exact absurd hsig (hother t htv)
        | accessed v j hm hv hother =>
          by_cases htv : t = v
          · rw [← htv, hpc] at hv
            cases hv
          · exact absurd hsig (hother t htv)
      | notify k c =>
        cases c with
        | entered =>
          simp only [State.exec, hpc] at hs
          cases hs
          exact ⟨m, h.access hinv hpc⟩
        | accessed =>
          simp only [State.exec, hpc] at hs
          cases hs
          exact ⟨m, h.release hpc⟩
      | _ =>
        rw [hpc] at hsig
        exact absurd hsig id
    · have hmark : ∀ k, s.pc t ≠ .markDone k := by
        intro k hpc
        have hpos := congrFun hadv.position t
        simp only [State.exec, hpc] at hs
        cases hs
        rw [State.mark_position hpc, update_self, State.position, hpc] at hpos
        exact absurd hpos (Nat.succ_ne_self k)
      obtain ⟨hlog, hafter⟩ := State.exec_quiet ha hs hmark hsig
      refine ⟨m, h.congr hlog (h.front.congr hadv.position) fun u => ?_⟩
      by_cases hu : u = t
      · rw [hu]
        exact Or.inr ⟨hsig, hafter⟩
      · rw [hadv.pc, update_of_ne hu]
        exact Or.inl rfl

theorem reachable_signalInv (ha : a.consumptionSignalAll = true) (hnt : 0 < a.nThreads)
    (hs : Reachable (driver a) s) : ∃ m, s.SignalInv m := by
  refine Reach.invariant (I := fun s => ∃ m, s.SignalInv m) ?_ (fun act s s' hreach _ h hstep => ?_) hs
  · refine ⟨0, ⟨fun _ => Nat.zero_le _, ⟨0, hnt⟩, rfl⟩, .idle (fun _ => id) rfl rfl, rfl, rfl⟩
  · obtain ⟨m, h⟩ := h
    cases act with
    | step t => exact h.exec (reachable_inv hreach.reachable) ha hstep
    | spuriousWakeup t =>
      cases hstep
      refine ⟨m, h.congr ⟨rfl, rfl, rfl, rfl⟩ (h.front.congr ?_) fun u => ?_⟩
      · funext u
        show (update s.pc t _ u).finished a = (s.pc u).finished a
        by_cases hu : u = t
        · rw [hu, update_self, Pc.finished_woken]
        · rw [update_of_ne hu]
      · show update s.pc t _ u = s.pc u ∨ ¬ (s.pc u).Signals ∧ ¬ (update s.pc t _ u).Signals
        by_cases hu : u = t
        · rw [hu, update_self, Pc.signals_woken]
          cases hpc : s.pc t <;> first | exact Or.inl rfl | exact Or.inr ⟨id, id⟩
        · rw [update_of_ne hu]
          exact Or.inl rfl

/-- The calls begun and the calls returned are those for the first steps; at most one has
not returned, and only complete steps are signalled. -/
theorem State.Signalling.log (h : s.Signalling m) : ∃ b r, s.called = List.range b ∧
    s.returned = List.range r ∧ r ≤ b ∧ b ≤ r + 1 ∧ b ≤ m := by
  cases h with
  | idle _ hcalled hreturned => exact ⟨m, m, hcalled, hreturned, le_rfl, Nat.le_succ m, le_rfl⟩
  | entered t k hm _ _ hcalled hreturned =>
    exact ⟨k, k, hcalled, hreturned, le_rfl, Nat.le_succ k, by omega⟩
  | accessed t k hm _ _ hcalled hreturned =>
    exact ⟨k + 1, k, hcalled, hreturned, Nat.le_succ k, le_rfl, hm.ge⟩

/-- The declared position after `b` signals. -/
theorem declaredAfter_range_pos (b : ℕ) (hn : n = 0 → b = 0) :
    (declaredAfter n (List.range n) b).pos = if b = 0 then -1 else (((b - 1) % n : ℕ) : ℤ) := by
  rcases Nat.eq_zero_or_pos n with rfl | hpos
  · rw [hn rfl]
    rfl
  · have hne : List.range n ≠ [] := by
      simp
      omega
    rw [declaredAfter_pos hne, List.length_range]

/-- After the joins every step has been signalled, and the final check passes. -/
theorem joined_result (ha : a.consumptionSignalAll = true) (hnt : 2 ≤ a.nThreads)
    (hsteps : a.nPasses * n < 2 ^ 32) (hs : Reachable (driver a) s) (hjoin : s.Joined) :
    s.returned = List.range (a.nPasses * n) ∧
      s.result = some ⟨a.nPasses, a.nPasses * n, s.bytesTouched⟩ := by
  obtain ⟨m, h⟩ := reachable_signalInv ha (by omega) hs
  obtain ⟨v, hv⟩ := h.front.2
  have htotal : a.totalSteps = a.nPasses * n := Nat.mod_eq_of_lt hsteps
  have hmtotal : m = a.nPasses * n := by
    rw [← hv, State.position, hjoin v]
    exact htotal
  rcases h.signalling.idle_or with ⟨-, -, hall⟩ | ⟨t, ht, -⟩
  · refine ⟨by rw [hall, hmtotal], ?_⟩
    rw [State.result, if_neg (by rw [h.notifyCount, hmtotal, htotal]; simp),
      Nat.mod_eq_of_lt hsteps]
  · rw [hjoin t] at ht
    exact absurd ht id

/-- In all-threads mode the signals are exact: one call for each step, when all threads
have finished it, one after the other in step order. -/
theorem exact_signal (ha : a.consumptionSignalAll = true) (hnt : 2 ≤ a.nThreads)
    (hsteps : a.nPasses * n < 2 ^ 32) (hs : Reachable (driver a) s) : ExactSignal s := by
  obtain ⟨m, h⟩ := reachable_signalInv ha (by omega) hs
  obtain ⟨b, r, hcalled, hreturned, hrb, hbr, hbm⟩ := h.signalling.log
  obtain ⟨v, hv⟩ := h.front.2
  have htotal : a.totalSteps = a.nPasses * n := Nat.mod_eq_of_lt hsteps
  have hm : m ≤ a.nPasses * n := by
    have hle := (reachable_inv hs).position_le v
    omega
  constructor
  · rw [hcalled, List.length_range]
  · rw [hreturned, List.length_range]
  · rw [hcalled, hreturned, List.length_range, List.length_range]
    exact ⟨hrb, hbr⟩
  · intro k hk
    rw [hcalled, List.mem_range] at hk
    exact ⟨by omega, fun t => (hk.trans_le hbm).trans_le (h.front.1 t)⟩
  · rw [h.policy, hcalled, List.length_range]
    refine declaredAfter_range_pos b ?_
    rintro rfl
    omega
  · exact joined_result ha hnt hsteps hs
  · exact exists_joined hs

theorem exact_signal_twoReaders :
    ExactSignal ((run (driver twoReaders) firstSignal (State.init twoReaders)).get firstSignal_runs) :=
  exact_signal rfl (by decide) (by decide) (reachable_get firstSignal firstSignal_runs)

end Residctl.Replay
