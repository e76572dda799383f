import Residctl.Lib.Sessions
import Residctl.Pins

/-!
# Prefetch attempts

A prefetch that finds its target `ABSENT` is an attempt. It is completed, and counted in
`stat_prefetches`, unless `ensure_budget_prefetch` returns -1: then no victim exists or the
admission rule declines the one there is, and `stat_prefetch_infeasible` and
`stat_prefetch_declined` are meant to tell these apart. But `do_one_prefetch` and `maybe_prefetch`
raise `stat_prefetch_infeasible` on any -1, so a declined attempt is counted in both
(`prefetch_declined_twice`). While nothing is declined every attempt is counted once, for its own
reason (`prefetch_accounted`); in every run the three counters exceed the attempts by the declined
ones (`prefetch_tally`).
-/

namespace Residctl.Pager

open Mutex Function Runs Sessions

variable {n : ℕ} {σ : Type} {cfg : Config n σ} {s s' : State n σ} {a : Action n} {t : Tid}
  {io : Input n} {sh sh' : Shared n σ} {k k' : Point n} {j : Job n} {i i' : Instr n}

/-! ## The log -/

/-- Why `ensure_budget_prefetch` returns -1. -/
inductive Refusal
  | noVictim
  /-- the victim is not strictly colder than the target -/
  | notColder
deriving DecidableEq, Repr

/-- The counters that an attempt can end in. -/
inductive PrefetchEnd
  /-- `stat_prefetches` -/
  | completed
  /-- `stat_prefetch_declined` -/
  | declined
  /-- `stat_prefetch_infeasible` -/
  | infeasible
deriving DecidableEq, Repr

def PrefetchEnd.reason : PrefetchEnd → Option Refusal
  | completed => none
  | declined => some .notColder
  | infeasible => some .noVictim

def Shared.ended (sh : Shared n σ) : PrefetchEnd → ℕ
  | .completed => sh.region.stats.prefetches
  | .declined => sh.region.stats.prefetchDeclined
  | .infeasible => sh.region.stats.prefetchInfeasible

abbrev AttemptEvent := Event Tid Refusal PrefetchEnd

/-- The target is `ABSENT`. -/
def foundNote (t : Tid) : Point n → Point n → List AttemptEvent
  | .checkPrefetch _, .pinPrefetch _ _ => [.opened t]
  | .checkMaybe _ _ _, .pinJustResident _ _ _ => [.opened t]
  | _, _ => []

/-- What the loop of `ensure_budget_prefetch` returns -1 for. -/
def refusalNote (cfg : Config n σ) (t : Tid) (r : Region n σ) : Point n → List AttemptEvent
  | .job j (.fit _) =>
    if j.speculative then
      match decision cfg r j with
      | .infeasible => [.noted t .noVictim]
      | .decline => [.noted t .notColder]
      | _ => []
    else []
  | _ => []

/-- What a step adds to the counters. -/
def endNote (t : Tid) (E E' : PrefetchEnd → ℕ) : List AttemptEvent :=
  [PrefetchEnd.completed, .declined, .infeasible].flatMap fun e =>
    List.replicate (E' e - E e) (.closed t e)

def stepNote (cfg : Config n σ) (t : Tid) (sh sh' : Shared n σ) (k k' : Point n) :
    List AttemptEvent :=
  foundNote t k k' ++ (refusalNote cfg t sh.region k ++ endNote t sh.ended sh'.ended)

def attemptNote (cfg : Config n σ) (a : Action n) (s s' : State n σ) : List AttemptEvent :=
  match a with
  | .exec t _ => stepNote cfg t s.sh s'.sh (s.pc t).point (s'.pc t).point
  | _ => []

/-- The way out of a prefetch that has been refused. -/
def Instr.refused : Instr n → Bool
  | unpinJustResident ok => !ok
  | unpinTarget ok => !ok
  | abandon => true
  | _ => false

/-- `none` when no prefetch is in progress, from the test of its target to its end; else whether
it has been refused. -/
def Point.attempt : Point n → Option Bool
  | pinPrefetch _ _ => some false
  | startPrefetch _ _ => some false
  | pinJustResident _ _ _ => some false
  | job j i => if j.speculative then some i.refused else none
  | _ => none

def State.attempt (s : State n σ) (t : Tid) : Option Bool := (s.pc t).point.attempt

/-- Every attempt ends in one counter, the one for its reason, and when no prefetch is in progress
the counters add up to the attempts. -/
structure PrefetchAccounted (s : State n σ) (h : List AttemptEvent) : Prop where
  each : InTurn (fun r e => e.reason = r) h s.attempt
  total : (∀ t, s.attempt t = none) → h.countP Event.opens =
    s.sh.ended .completed + s.sh.ended .declined + s.sh.ended .infeasible

/-! ## One step -/

/-- What a step does to the attempt of thread `t` and to the counters. -/
inductive Attempt (t : Tid) :
    Option Bool → Option Bool → (PrefetchEnd → ℕ) → (PrefetchEnd → ℕ) → List AttemptEvent → Prop
  | quiet {b E} : Attempt t b b E E []
  | found {E} : Attempt t none (some false) E E [.opened t]
  | noVictim {E} : Attempt t (some false) (some true) E E [.noted t .noVictim]
  | notColder {E} : Attempt t (some false) (some true) E (update E .declined (E .declined + 1))
      [.noted t .notColder, .closed t .declined]
  | ended {b E} (e : PrefetchEnd) (he : e ≠ .declined) (hb : e.reason.isSome = b) :
      Attempt t (some b) none E (update E e (E e + 1)) [.closed t e]

/-- The instructions of demand fetches. -/
def Instr.demandOnly : Instr n → Bool
  | predict => true
  | topNeed => true
  | topPredict _ _ _ => true
  | topEnqueue _ _ _ => true
  | unpin => true
  | finish => true
  | _ => false

/-- The instructions of prefetches. -/
def Instr.ofPrefetch : Instr n → Bool
  | unpinTarget _ => true
  | retain => true
  | finishPrefetch => true
  | _ => false

/-- A fetch is at an instruction of its own kind. -/
def Point.Suited : Point n → Prop
  | .job j i =>
    (i.demandOnly = true → j.speculative = false) ∧ (i.ofPrefetch = true → j.speculative = true)
  | _ => True

theorem endNote_self (t : Tid) (E : PrefetchEnd → ℕ) : endNote t E E = [] := by
  simp [endNote]

theorem endNote_update (t : Tid) (E : PrefetchEnd → ℕ) (e : PrefetchEnd) :
    endNote t E (update E e (E e + 1)) = [.closed t e] := by
  cases e <;> simp [endNote]

theorem ended_release (sh : Shared n σ) (c : Fin n) :
    (sh.setRegion (prefetchRetainRelease sh.region c)).ended = sh.ended := by
  unfold prefetchRetainRelease
  split <;> rfl

theorem ended_hook (sh : Shared n σ) (f : Option (σ → Fin n → σ)) (c : Fin n) :
    (sh.hook f c).ended = sh.ended := by
  cases f <;> rfl

theorem ended_retain (cfg : Config n σ) (sh : Shared n σ) (c : Fin n) :
    (sh.setRegion (prefetchRetainOnResident cfg sh.region c)).ended = sh.ended := by
  unfold prefetchRetainOnResident
  split
  · split <;> rfl
  · rfl

theorem ended_markResident (cfg : Config n σ) (sh : Shared n σ) (j : Job n) :
    (markResident cfg sh j).ended = sh.ended := by
  unfold markResident
  split
  · rfl
  · exact ended_hook _ _ _

theorem ended_countDeclined (sh : Shared n σ) : (sh.setRegion (countDeclined sh.region)).ended =
    update sh.ended .declined (sh.ended .declined + 1) := by
  funext e
  cases e <;> rfl

theorem ended_prefetches (sh : Shared n σ) :
    (sh.stat fun st => { st with prefetches := st.prefetches + 1 }).ended =
      update sh.ended .completed (sh.ended .completed + 1) := by
  funext e
  cases e <;> rfl

/-- Only a failed prefetch is counted. -/
theorem ended_countFailed_demand (sh : Shared n σ) (hj : j.speculative = false) :
    (countFailed sh j).ended = sh.ended := by
  cases j <;> first | rfl | cases hj

theorem ended_countFailed_prefetch (sh : Shared n σ) (hj : j.speculative = true) :
    (countFailed sh j).ended = update sh.ended .infeasible (sh.ended .infeasible + 1) := by
  funext e
  cases j <;> first | exact absurd hj Bool.false_ne_true | cases e <;> rfl

/-- Only a prefetch is declined. -/
theorem speculative_of_decline {r : Region n σ} (h : decision cfg r j = .decline) :
    j.speculative = true := by
  unfold decision at h
  split at h
  · assumption
  · unfold demandDecision demandHead at h
    repeat' split at h
    all_goals cases h

theorem attempt_of_demand (hj : j.speculative = false) : (Point.job j i).attempt = none :=
  if_neg (Bool.eq_false_iff.1 hj)

theorem attempt_of_prefetch (hj : j.speculative = true) :
    (Point.job j i).attempt = some i.refused :=
  if_pos hj

/-- The instruction does not matter to a demand fetch, nor does a step that does not refuse. -/
theorem attempt_job (h : j.speculative = true → i'.refused = i.refused) :
    (Point.job j i').attempt = (Point.job j i).attempt := by
  cases hj : j.speculative with
  | false => rw [attempt_of_demand hj, attempt_of_demand hj]
  | true => rw [attempt_of_prefetch hj, attempt_of_prefetch hj, h hj]

theorem after_attempt (j : Job n) : j.after.attempt = none := by
  cases j <;> rfl

theorem ensured_refused (cfg : Config n σ) (a : ℕ) (ok : Bool) (hj : j.speculative = true) :
    (ensured cfg a ok j).refused = !ok := by
  cases j with
  | prefetch c => cases ok <;> rfl
  | maybe jr c hne => rfl
  | _ => cases hj

theorem marked_refused (cfg : Config n σ) (hj : j.speculative = true) :
    (marked cfg j).refused = false := by
  rw [marked, if_pos hj]
  split <;> rfl

section

variable {b : Bool} {e : PrefetchEnd}

/-- Nothing is noted or counted on the way. -/
theorem Attempt.still (hE : sh'.ended = sh.ended) (h : k'.attempt = k.attempt)
    (hfound : foundNote t k k' = []) (hrefused : refusalNote cfg t sh.region k = []) :
    Attempt t k.attempt k'.attempt sh.ended sh'.ended (stepNote cfg t sh sh' k k') := by
  rw [stepNote, hfound, hrefused, hE, endNote_self, h]
  exact .quiet

theorem Attempt.fresh (hE : sh'.ended = sh.ended) (hk : k.attempt = none)
    (hk' : k'.attempt = some false) (hfound : foundNote t k k' = [.opened t])
    (hrefused : refusalNote cfg t sh.region k = []) :
    Attempt t k.attempt k'.attempt sh.ended sh'.ended (stepNote cfg t sh sh' k k') := by
  rw [stepNote, hfound, hrefused, hE, endNote_self, hk, hk']
  exact .found

theorem Attempt.over (hE : sh'.ended = update sh.ended e (sh.ended e + 1)) (he : e ≠ .declined)
    (hk : k.attempt = some b) (hb : e.reason.isSome = b) (hk' : k'.attempt = none)
    (hfound : foundNote t k k' = []) (hrefused : refusalNote cfg t sh.region k = []) :
    Attempt t k.attempt k'.attempt sh.ended sh'.ended (stepNote cfg t sh sh' k k') := by
  rw [stepNote, hfound, hrefused, hE, endNote_update, hk, hk']
  exact .ended e he hb

end

theorem JobBranch.attempt (hsuited : (Point.job j i).Suited) (h : JobBranch cfg io sh j i sh' k') :
    Attempt t (Point.job j i).attempt k'.attempt sh.ended sh'.ended
      (stepNote cfg t sh sh' (.job j i) k') := by
  cases h with
  | reserve hdecide =>
    refine .still rfl (attempt_job (ensured_refused cfg _ true)) rfl ?_
    simp only [refusalNote, hdecide, ite_self]
  | choose hdecide =>
    refine .still rfl rfl rfl ?_
    simp only [refusalNote, hdecide, ite_self]
  | breakPin hdecide =>
    refine .still (ended_release sh _) rfl rfl ?_
    simp only [refusalNote, hdecide, ite_self]
  -- the loop of `ensure_budget` finds no victim either; only prefetches are noted
  | @infeasible _ a hdecide =>
    cases hj : j.speculative with
    | false =>
      refine .still rfl ((attempt_of_demand hj).trans (attempt_of_demand hj).symm) rfl ?_
      rw [refusalNote, hj]
      rfl
    | true =>
      have hE : (sh.setRegion (countInfeasible sh.region)).ended = sh.ended := rfl
      have hrefused : refusalNote cfg t sh.region (.job j (.fit a)) = [.noted t .noVictim] := by
        simp only [refusalNote, hdecide, hj, if_true]
      rw [attempt_of_prefetch hj, attempt_of_prefetch hj, ensured_refused cfg _ _ hj, stepNote,
        hrefused, hE, endNote_self]
      exact .noVictim
  | @decline _ a hdecide =>
    have hj := speculative_of_decline hdecide
    have hrefused : refusalNote cfg t sh.region (.job j (.fit a)) = [.noted t .notColder] := by
      simp only [refusalNote, hdecide, hj, if_true]
    rw [attempt_of_prefetch hj, attempt_of_prefetch hj, ensured_refused cfg _ _ hj, stepNote,
      hrefused, ended_countDeclined, endNote_update]
    exact .notColder
  | pad =>
    refine .still ?_ rfl rfl rfl
    unfold padTail
    split <;> rfl
  | commit =>
    refine .still ?_ rfl rfl rfl
    split <;> rfl
  | mark => exact .still (ended_markResident cfg sh j) (attempt_job (marked_refused cfg)) rfl rfl
  | @unpinJustResident jr c hne ok => cases ok <;> exact .still rfl rfl rfl rfl
  | @unpinTarget _ ok =>
    refine .still rfl (attempt_job fun _ => ?_) rfl rfl
    cases ok <;> rfl
  -- both refusals come out here, and so does a demand fetch that gives up
  | abandon =>
    cases hj : j.speculative with
    | false =>
      exact .still (ended_countFailed_demand _ hj)
        ((after_attempt j).trans (attempt_of_demand hj).symm) rfl rfl
    | true =>
      exact .over (ended_countFailed_prefetch _ hj) (by decide) (attempt_of_prefetch hj) rfl
        (after_attempt j) rfl rfl
  | retain => exact .still (ended_retain cfg sh j.target) rfl rfl rfl
  | finishPrefetch _ =>
    exact .over ((ended_hook _ _ _).trans (ended_prefetches sh)) (by decide)
      (attempt_of_prefetch (hsuited.2 rfl)) rfl (after_attempt j) rfl rfl
  | topNeed => exact .still rfl (attempt_job fun hj => by rw [hsuited.1 rfl] at hj; cases hj) rfl rfl
  | topEnqueue =>
    refine .still ?_ (attempt_job fun hj => by rw [hsuited.1 rfl] at hj; cases hj) rfl rfl
    unfold Pager.topEnqueue
    split <;> rfl
  | finish _ =>
    exact .still rfl ((after_attempt j).trans (attempt_of_demand (hsuited.1 rfl)).symm) rfl rfl
  | _ => exact .still rfl rfl rfl rfl

theorem afterFault_attempt (cfg : Config n σ) (m : Msg) (c : Fin n) :
    (afterFault cfg m c).attempt = none := by
  unfold afterFault
  split <;> rfl

theorem afterAccess_attempt (cfg : Config n σ) (c : Fin n) : (afterAccess cfg c).attempt = none := by
  unfold afterAccess
  split <;> rfl

theorem exec_attempt (hsuited : k.Suited) (hexec : exec cfg t io sh k = .next sh' k') :
    Attempt t k.attempt k'.attempt sh.ended sh'.ended (stepNote cfg t sh sh' k k') := by
  cases exec_branch hexec with
  | job h => exact h.attempt hsuited
  | wanted _ | startMaybe _ => exact .fresh rfl rfl rfl rfl rfl
  | beginSilently _ _ => exact .still rfl (afterFault_attempt cfg _ _) rfl rfl
  | onFault => exact .still (ended_hook _ _ _) (afterFault_attempt cfg _ _) rfl rfl
  | notifySilently _ _ => exact .still rfl (afterAccess_attempt cfg _) rfl rfl
  | onAccess => exact .still (ended_hook _ _ _) (afterAccess_attempt cfg _) rfl rfl
  | release => exact .still (ended_release sh _) rfl rfl rfl
  | _ => exact .still rfl rfl rfl rfl

/-! ## Instructions stay with their kind -/

/-- An instruction of both kinds. -/
theorem suited_of_shared (hd : i.demandOnly = false) (hp : i.ofPrefetch = false) :
    (Point.job j i).Suited :=
  ⟨fun h => (by rw [hd] at h; cases h), fun h => (by rw [hp] at h; cases h)⟩

theorem suited_of_demand (hj : j.speculative = false) (hp : i.ofPrefetch = false) :
    (Point.job j i).Suited :=
  ⟨fun _ => hj, fun h => (by rw [hp] at h; cases h)⟩

theorem suited_of_prefetch (hj : j.speculative = true) (hd : i.demandOnly = false) :
    (Point.job j i).Suited :=
  ⟨fun h => (by rw [hd] at h; cases h), fun _ => hj⟩

theorem ensured_suited (cfg : Config n σ) (a : ℕ) (ok : Bool) (j : Job n) :
    (Point.job j (ensured cfg a ok j)).Suited := by
  cases j with
  | handle c =>
    refine suited_of_demand rfl ?_
    simp only [ensured]
    repeat' split
    all_goals rfl
  | demand c =>
    refine suited_of_demand rfl ?_
    simp only [ensured]
    repeat' split
    all_goals rfl
  | prefetch c => cases ok <;> exact suited_of_prefetch rfl rfl
  | maybe jr c hne => exact suited_of_prefetch rfl rfl

theorem speculate_demand (cfg : Config n σ) (j : Job n) : (speculate cfg j).ofPrefetch = false := by
  unfold speculate
  repeat' split
  all_goals rfl

theorem marked_suited (cfg : Config n σ) (j : Job n) : (Point.job j (marked cfg j)).Suited := by
  unfold marked
  by_cases hj : j.speculative = true
  · rw [if_pos hj]
    split <;> exact suited_of_prefetch hj rfl
  · rw [if_neg hj]
    exact suited_of_demand (Bool.eq_false_iff.2 hj) (speculate_demand cfg j)

theorem after_suited (j : Job n) : j.after.Suited := by
  cases j with
  | maybe jr c hne => exact suited_of_demand rfl rfl
  | _ => trivial

theorem topNext_suited (need r : ℕ) (cursor : Fin n) (hj : j.speculative = false) :
    (Point.job j (topNext need r cursor)).Suited := by
  unfold topNext
  split <;> exact suited_of_demand hj rfl

theorem JobBranch.suited (hsuited : (Point.job j i).Suited) (h : JobBranch cfg io sh j i sh' k') :
    k'.Suited := by
  cases h with
  | reserve _ => exact ensured_suited cfg _ true j
  | infeasible _ | decline _ => exact ensured_suited cfg _ false j
  | @unpinJustResident jr c hne ok => cases ok <;> exact suited_of_prefetch rfl rfl
  | mark => exact marked_suited cfg j
  | @unpinTarget _ ok => cases ok <;> exact suited_of_prefetch (hsuited.2 rfl) rfl
  | abandon | finishPrefetch _ | finish _ => exact after_suited j
  | retain => exact suited_of_prefetch (hsuited.2 rfl) rfl
  | predict _ => trivial
  | topNeed | topEnqueue => exact topNext_suited _ _ _ (hsuited.1 rfl)
  | predictNone _ | topStop | topPredict _ _ | unpin => exact suited_of_demand (hsuited.1 rfl) rfl
  | _ => exact suited_of_shared rfl rfl

theorem afterFault_suited (cfg : Config n σ) (m : Msg) (c : Fin n) : (afterFault cfg m c).Suited := by
  unfold afterFault
  split
  · trivial
  · exact suited_of_shared rfl rfl

theorem afterAccess_suited (cfg : Config n σ) (c : Fin n) : (afterAccess cfg c).Suited := by
  unfold afterAccess
  split <;> trivial

theorem exec_suited (hsuited : k.Suited) (hexec : exec cfg t io sh k = .next sh' k') : k'.Suited := by
  cases exec_branch hexec with
  | job h => exact h.suited hsuited
  | beginSilently _ _ | onFault => exact afterFault_suited cfg _ _
  | notifySilently _ _ | onAccess => exact afterAccess_suited cfg _
  | startDemand _ | startPrefetch | pinJustResident => exact suited_of_shared rfl rfl
  | leaveMaybe _ => exact suited_of_demand rfl rfl
  | _ => trivial

theorem Reach.suited {ok : Action n → State n σ → Prop} {p : σ} (h : Reach (pager cfg p) ok s) :
    ∀ t, (s.pc t).point.Suited :=
  Reach.forall_point (fun t => init_point (P := Point.Suited) trivial trivial trivial trivial cfg p t)
    (fun _ _ => trivial) exec_suited h

/-! ## What the log says -/

/-- The event raises the counter. -/
def endsIn (e : PrefetchEnd) : AttemptEvent → Bool
  | .closed _ e' => e' = e
  | _ => false

/-- The log without the declined ends, after which the prefetch is counted once more. -/
def settling (h : List AttemptEvent) : List AttemptEvent := h.filter fun ev => !endsIn .declined ev

/-- What the log has to do with the attempts and the counters, in every run. -/
structure Tallied (stage : Tid → Option Bool) (E : PrefetchEnd → ℕ) (h : List AttemptEvent) :
    Prop where
  turn : InTurn (fun r e => e ≠ .declined ∧ e.reason.isSome = r.isSome) (settling h) stage
  counted : ∀ e, E e = h.countP (endsIn e)

section

variable {h : List AttemptEvent} {E E' : PrefetchEnd → ℕ} {e : PrefetchEnd} {ev : AttemptEvent}
  {note : List AttemptEvent} {stage : Tid → Option Bool} {b b' : Option Bool}

theorem settling_append (h h' : List AttemptEvent) :
    settling (h ++ h') = settling h ++ settling h' :=
  List.filter_append ..

theorem countP_endsIn_closed (h : List AttemptEvent) (t : Tid) (d e : PrefetchEnd) :
    update (fun d => h.countP (endsIn d)) e (h.countP (endsIn e) + 1) d =
      (h ++ [Event.closed t e]).countP (endsIn d) := by
  rw [List.countP_append]
  by_cases hd : d = e
  · subst hd
    simp [endsIn]
  · simp [endsIn, hd, Ne.symm hd]

theorem Tallied.step (hl : Tallied stage E h) (hattempt : Attempt t (stage t) b E E' note) :
    Tallied (update stage t b) E' (h ++ note) := by
  obtain ⟨hturn, hcounted⟩ := hl
  have hE : E = fun e => h.countP (endsIn e) := funext hcounted
  generalize ht : stage t = b₀ at hattempt
  cases hattempt with
  | quiet =>
    rw [← ht, update_eq_self, List.append_nil]
    exact ⟨hturn, hcounted⟩
  | found =>
    refine ⟨?_, fun e => ?_⟩
    · rw [settling_append]
      exact hturn.open ht
    · rw [hcounted, List.countP_append]
      rfl
  | noVictim =>
    refine ⟨?_, fun e => ?_⟩
    · rw [settling_append]
      exact hturn.note ht _
    · rw [hcounted, List.countP_append]
      rfl
  -- the declined end is left out of `settling`, so the session stays open
  | notColder =>
    refine ⟨?_, fun e => ?_⟩
    · rw [settling_append]
      exact hturn.note ht _
    · rw [hE, countP_endsIn_closed h t, List.countP_append, List.countP_append]
      rfl
  | ended e he hb =>
    refine ⟨?_, fun d => ?_⟩
    · have hkeep : settling [.closed t e] = [.closed t e] := by
        simp [settling, endsIn, he]
      rw [settling_append, hkeep]
      exact hturn.close ht fun r hr => ⟨he, hb.trans hr.symm⟩
    · rw [hE, countP_endsIn_closed h t]

theorem countP_opens_settling (h : List AttemptEvent) :
    (settling h).countP Event.opens = h.countP Event.opens := by
  rw [settling, List.countP_filter]
  refine List.countP_congr fun ev _ => ?_
  cases ev <;> simp [Event.opens, endsIn]

theorem countP_closes_settling (h : List AttemptEvent) :
    (settling h).countP Event.closes =
      h.countP (endsIn .completed) + h.countP (endsIn .infeasible) := by
  induction h with
  | nil => rfl
  | cons ev h ih =>
    rw [settling, List.countP_filter] at ih ⊢
    rw [List.countP_cons, List.countP_cons, List.countP_cons, ih]
    rcases ev with t | ⟨t, r⟩ | ⟨t, e⟩
    · rfl
    · rfl
    · cases e
      · exact Nat.add_right_comm ..
      · rfl
      · exact Nat.add_assoc ..

/-- In every run the counters exceed the attempts by the declined prefetches. -/
theorem Tallied.tally (hl : Tallied stage E h) (hidle : ∀ t, stage t = none) :
    E .completed + E .infeasible = h.countP Event.opens := by
  rw [hl.counted, hl.counted, ← countP_closes_settling, ← hl.turn.settled hidle,
    countP_opens_settling]

end

/-! ## Nothing is declined -/

/-- The prefetch that looks for room finds none, or a victim that is strictly colder than its
target. -/
def ColderVictim (cfg : Config n σ) (a : Action n) (s : State n σ) : Prop :=
  match a with
  | .exec t _ =>
    match (s.pc t).point with
    | .job j (.fit _) => j.speculative = true → overBudget cfg s.sh.region j.target →
        ∀ v, cfg.selectVictim s.sh.region = some v → admits cfg s.sh.region j.target v
    | _ => True
  | _ => True

instance (cfg : Config n σ) (a : Action n) (s : State n σ) : Decidable (ColderVictim cfg a s) := by
  unfold ColderVictim
  induction a using Action.casesOn with
  | exec t io =>
    dsimp only
    induction (s.pc t).point using Point.casesOn with
    | job j i => induction i using Instr.casesOn <;> dsimp only <;> infer_instance
    | _ => dsimp only; infer_instance
  | _ => dsimp only; infer_instance

structure Undeclined (h : List AttemptEvent) : Prop where
  noted : ∀ t w, .noted t w ∈ h → w = .noVictim
  closed : ∀ ev ∈ h, endsIn .declined ev = false

section

variable {h h' note : List AttemptEvent} {E E' : PrefetchEnd → ℕ} {b b' : Option Bool} {u : Tid}
  {w : Refusal}

theorem Undeclined.nil : Undeclined [] :=
  ⟨fun _ _ => (by rintro ⟨⟩), fun _ => (by rintro ⟨⟩)⟩

theorem Undeclined.append (hh : Undeclined h) (hh' : Undeclined h') : Undeclined (h ++ h') :=
  ⟨fun t w hmem => (List.mem_append.1 hmem).elim (hh.noted t w) (hh'.noted t w),
    fun ev hmem => (List.mem_append.1 hmem).elim (hh.closed ev) (hh'.closed ev)⟩

theorem Undeclined.settling_eq (hh : Undeclined h) : settling h = h :=
  List.filter_eq_self.2 fun ev hev => by rw [hh.closed ev hev]; rfl

theorem Undeclined.countP_eq_zero (hh : Undeclined h) : h.countP (endsIn .declined) = 0 :=
  List.countP_eq_zero.2 fun ev hev => by rw [hh.closed ev hev]; exact Bool.false_ne_true

/-- A declined end comes with its reason. -/
theorem Attempt.undeclined (hattempt : Attempt t b b' E E' note)
    (hno : .noted t .notColder ∉ note) : Undeclined note := by
  cases hattempt with
  | quiet => exact .nil
  | found => exact ⟨by simp, by simp [endsIn]⟩
  | noVictim => exact ⟨by simp, by simp [endsIn]⟩
  | notColder => exact absurd (List.mem_cons_self ..) hno
  | ended e he hb => exact ⟨by simp, by simpa [endsIn] using he⟩

/-- A reason comes from the loop of `ensure_budget_prefetch`. -/
theorem noted_mem_stepNote (h : .noted u w ∈ stepNote cfg t sh sh' k k') :
    .noted u w ∈ refusalNote cfg t sh.region k := by
  rcases List.mem_append.1 h with hfound | hrest
  · unfold foundNote at hfound
    split at hfound <;> simp at hfound
  · refine (List.mem_append.1 hrest).resolve_right fun hend => ?_
    simp [endNote] at hend

theorem notColder_notMem (hok : ColderVictim cfg (.exec t io) s) (hpc : s.pc t = .go k) :
    .noted t .notColder ∉ refusalNote cfg t s.sh.region k := by
  intro hmem
  unfold refusalNote at hmem
  split at hmem
  · rename_i j a
    have hfits : j.speculative = true → overBudget cfg s.sh.region j.target →
        ∀ v, cfg.selectVictim s.sh.region = some v → admits cfg s.sh.region j.target v := by
      simpa [ColderVictim, hpc, Pc.point] using hok
    split at hmem
    · rename_i hj
      split at hmem
      · simp at hmem
      · rename_i hdecide
        rw [decision, if_pos hj] at hdecide
        obtain ⟨hover, v, hv, hnot⟩ := prefetchDecision_decline hdecide
        exact hnot (hfits hj hover v hv)
      · cases hmem
    · cases hmem
  · cases hmem

end

/-! ## Whole runs -/

section

variable {h : List AttemptEvent} {p : σ}

theorem attempt_arrive (s : State n σ) (t : Tid) (sh : Shared n σ) (k : Point n) :
    (s.arrive t sh k).attempt = update s.attempt t k.attempt := by
  funext u
  by_cases hu : u = t
  · subst hu
    rw [update_self, State.attempt, point_arrive_self]
  · rw [update_of_ne hu, State.attempt, point_arrive_of_ne hu]
    rfl

/-- A step moves the attempt of one thread. -/
theorem attempt_of_step (hsuited : ∀ t, (s.pc t).point.Suited) (hstep : step cfg a s = some s') :
    ∃ t b, s'.attempt = update s.attempt t b ∧
      Attempt t (s.attempt t) b s.sh.ended s'.sh.ended (attemptNote cfg a s s') ∧
      (ColderVictim cfg a s → .noted t .notColder ∉ attemptNote cfg a s s') := by
  cases moves_of_step hstep with
  | @acquire _ t k l hpc hneeds hfree =>
    refine ⟨t, _, ?_, .quiet, fun _ => List.not_mem_nil⟩
    rw [update_eq_self]
    exact funext fun u => congrArg Point.attempt (acquire_point hpc u)
  | @giveUp _ now c hpc =>
    have hold : s.attempt .handler = none := by
      rw [State.attempt, hpc]
      rfl
    refine ⟨.handler, s.attempt .handler, ?_, .quiet, fun _ => List.not_mem_nil⟩
    rw [attempt_arrive, hold]
    rfl
  | @exec _ t io k sh k' hpc hexec =>
    have hk : k.Suited := forall_go (P := fun _ k => k.Suited) hsuited hpc
    have hnote : attemptNote cfg (.exec t io) s (s.arrive t sh k') = stepNote cfg t s.sh sh k k' := by
      show stepNote cfg t s.sh sh (s.pc t).point ((s.arrive t sh k').pc t).point = _
      rw [hpc, point_arrive_self]
      rfl
    have hold : s.attempt t = k.attempt := by
      rw [State.attempt, hpc]
      rfl
    refine ⟨t, k'.attempt, attempt_arrive s t sh k', ?_, fun hok hmem => ?_⟩
    · rw [hnote, hold]
      exact exec_attempt hk hexec
    · rw [hnote] at hmem
      exact notColder_notMem hok hpc (noted_mem_stepNote hmem)
  | tick _ => exact ⟨.handler, _, (update_eq_self ..).symm, .quiet, fun _ => List.not_mem_nil⟩
  | drop _ => exact ⟨.handler, _, (update_eq_self ..).symm, .quiet, fun _ => List.not_mem_nil⟩
  | requestStop => exact ⟨.handler, _, (update_eq_self ..).symm, .quiet, fun _ => List.not_mem_nil⟩

theorem Tallied.init (cfg : Config n σ) (p : σ) :
    Tallied (pager cfg p).init.attempt (pager cfg p).init.sh.ended [] :=
  ⟨InTurn.nil (init_point (P := fun k => k.attempt = none) rfl rfl rfl rfl cfg p),
    fun e => by cases e <;> rfl⟩

theorem Reachable.tallied (hreach : Reachable ((pager cfg p).recorded (attemptNote cfg)) (s, h)) :
    Tallied s.attempt s.sh.ended h := by
  refine Reachable.recorded_invariant
    (I := fun (s : State n σ) (h : List AttemptEvent) => Tallied s.attempt s.sh.ended h)
    (Tallied.init cfg p) (fun a s s' h hr hl hs => ?_) hreach
  obtain ⟨t, b, hmove, hattempt, -⟩ := attempt_of_step (Reach.suited hr) hs
  rw [hmove]
  exact hl.step hattempt

theorem Reach.undeclined
    (hreach : Reach ((pager cfg p).recorded (attemptNote cfg)) (fun a x => ColderVictim cfg a x.1)
      (s, h)) :
    Undeclined h := by
  refine Reach.recorded_invariant (I := fun (_ : State n σ) (h : List AttemptEvent) => Undeclined h)
    Undeclined.nil (fun a s s' h hr hok hu hs => ?_) hreach
  obtain ⟨t, b, -, hattempt, hno⟩ := attempt_of_step (Reach.suited hr) hs
  exact hu.append (hattempt.undeclined (hno hok))

end

/-- In every run the completed and the abandoned prefetches add up to the attempts. The declined
ones are among the abandoned. -/
theorem prefetch_tally (cfg : Config n σ) (p : σ) {h : List AttemptEvent}
    (hreach : Reachable ((pager cfg p).recorded (attemptNote cfg)) (s, h))
    (hidle : ∀ t, s.attempt t = none) :
    s.sh.ended .completed + s.sh.ended .infeasible = h.countP Event.opens :=
  (Reachable.tallied hreach).tally hidle

/-- While `ensure_budget_prefetch` declines nothing, every attempt ends in the counter for its
reason and is counted once. -/
theorem prefetch_accounted (cfg : Config n σ) (p : σ) {h : List AttemptEvent}
    (hreach : Reach ((pager cfg p).recorded (attemptNote cfg)) (fun a x => ColderVictim cfg a x.1)
      (s, h)) :
    PrefetchAccounted s h := by
  have hl := Reachable.tallied hreach.reachable
  have hu := Reach.undeclined hreach
  refine ⟨?_, fun hidle => ?_⟩
  · -- no note is `notColder`, so the outcome tells the reason
    have hturn := hl.turn
    rw [hu.settling_eq] at hturn
    refine hturn.imp hu.noted fun r e hr ⟨he, hsome⟩ => ?_
    cases e with
    | completed =>
      have hnone := Option.isSome_eq_false_iff.1 hsome.symm
      exact (Option.isNone_iff_eq_none.1 hnone).symm
    | declined => exact absurd rfl he
    | infeasible =>
      obtain ⟨w, rfl⟩ := Option.isSome_iff_exists.1 hsome.symm
      exact congrArg some (hr w rfl).symm
  · have hnone : s.sh.ended .declined = 0 := (hl.counted _).trans hu.countP_eq_zero
    rw [hnone, Nat.add_zero]
    exact (hl.tally hidle).symm

/-- Four chunks of one page in a declared cycle, room for one of them, prefetches under the
admission rule. -/
def tightAhead : Config 4 LoDeclared := { fourAhead with
  budgetBytes := 4096
  policy := some (policyLayerOrderDeclared 4 ⟨false, true⟩)
  prefetchAdmissionAlways := false }

/-- Worker 1 prefetches chunk 1 up to the end of its budget call, and finds no room. -/
def refusePrefetch : List (Action 4) :=
  [.acquire (.worker 1), .exec (.worker 1) {}, .acquire (.worker 1), .exec (.worker 1) {},
    .acquire (.worker 1), .exec (.worker 1) {}, .exec (.worker 1) {}, .acquire (.worker 1),
    .exec (.worker 1) {}, .exec (.worker 1) {}, .exec (.worker 1) {}, .acquire (.worker 1),
    .exec (.worker 1) {}, .exec (.worker 1) {}]

theorem refusePrefetch_colderVictim :
    (runIf ((pager tightAhead fourAheadCycle).recorded (attemptNote tightAhead))
      (fun a x => ColderVictim tightAhead a x.1) (demandZero ++ refusePrefetch)
      ((pager tightAhead fourAheadCycle).recorded (attemptNote tightAhead)).init).isSome = true := by
  decide +kernel

/-- Chunk 0 is still pinned by its demand fetch: no victim exists. -/
theorem prefetch_accounted_tightAhead : ∃ (s : State 4 LoDeclared) (h : List AttemptEvent),
    h = [.opened (.worker 1), .noted (.worker 1) .noVictim, .closed (.worker 1) .infeasible] ∧
      PrefetchAccounted s h :=
  ⟨_, _, by decide +kernel,
    prefetch_accounted tightAhead fourAheadCycle
      (reach_get (demandZero ++ refusePrefetch) refusePrefetch_colderVictim)⟩

/-- Worker 0 drops its pin before the prefetch: chunk 0 is the victim, and needed sooner. -/
def declinePrefetch : List (Action 4) :=
  demandZero ++ [.acquire (.worker 0), .exec (.worker 0) {}] ++ refusePrefetch

theorem declinePrefetch_runs :
    (run ((pager tightAhead fourAheadCycle).recorded (attemptNote tightAhead)) declinePrefetch
      ((pager tightAhead fourAheadCycle).recorded (attemptNote tightAhead)).init).isSome = true := by
  decide +kernel

/-- One attempt, counted as declined and as infeasible. -/
theorem declined_attempt : ∃ (s : State 4 LoDeclared) (h : List AttemptEvent),
    Reachable ((pager tightAhead fourAheadCycle).recorded (attemptNote tightAhead)) (s, h) ∧
      s.attempt (.worker 1) = none ∧
      h = [.opened (.worker 1), .noted (.worker 1) .notColder, .closed (.worker 1) .declined,
        .closed (.worker 1) .infeasible] :=
  ⟨_, _, reachable_get declinePrefetch declinePrefetch_runs, by decide +kernel, by decide +kernel⟩

theorem prefetch_declined_twice : ¬ ∀ (s : State 4 LoDeclared) (h : List AttemptEvent),
    Reachable ((pager tightAhead fourAheadCycle).recorded (attemptNote tightAhead)) (s, h) →
      PrefetchAccounted s h := by
  intro hall
  obtain ⟨s, h, hreach, hworker, rfl⟩ := declined_attempt
  have hl := Reachable.tallied hreach
  have hidle : ∀ t, s.attempt t = none := by
    intro t
    -- only worker 1 has events
    by_cases ht : t = .worker 1
    · rw [ht]
      exact hworker
    · refine hl.turn.stage_eq_none ?_
      simp [settling, endsIn, ofThread, Event.thread, Ne.symm ht]
  have htotal := (hall s _ hreach).total hidle
  rw [hl.counted, hl.counted, hl.counted] at htotal
  revert htotal
  decide

end Residctl.Pager
