import Residctl.Pool
import Residctl.Pins

/-!
# Consumption signals

A retained chunk stays pinned until `pager_notify_access` reports that it was consumed.
The machine keeps a log of the prefetches that start and of the signals. A signal that
comes while the prefetch is in flight finds nothing to release, and
`prefetch_retain_on_resident` does not know of it (`signal_lost`); a chunk is retained
unsignalled as long as no signal comes in this window (`signals_kept`). The ring of the FIFO
never wraps (`Retained`), and for those of the fetch pool see `Reach.unringed`.
-/

namespace Residctl.Pager

open Mutex Function Runs

variable {n : ℕ} {σ : Type} {cfg : Config n σ} {s s' : State n σ} {a : Action n} {t : Tid}
  {io : Input n} {sh sh' : Shared n σ} {k k' : Point n} {c d : Fin n} {j : Job n} {i i' : Instr n}

/-! ## The log -/

inductive RetainEvent (n : ℕ)
  /-- a prefetch has pinned the chunk and set `FETCHING` -/
  | started (c : Fin n)
  /-- `pager_notify_access` has run `prefetch_retain_release` -/
  | notified (c : Fin n)
deriving DecidableEq, Repr

def flightNote : Point n → Point n → List (RetainEvent n)
  | .startPrefetch _ c, _ => [.started c]
  | .checkMaybe _ c _, .pinJustResident _ _ _ => [.started c]
  | .release c, _ => [.notified c]
  | _, _ => []

def retainNote (a : Action n) (s s' : State n σ) : List (RetainEvent n) :=
  match a with
  | .exec t _ => flightNote (s.pc t).point (s'.pc t).point
  | _ => []

/-- What has happened since the last prefetch of `c` started, latest first. -/
def sinceStart (c : Fin n) (h : List (RetainEvent n)) : List (RetainEvent n) :=
  h.reverse.takeWhile fun e => e ≠ .started c

theorem sinceStart_snoc (c : Fin n) (h : List (RetainEvent n)) (e : RetainEvent n) :
    sinceStart c (h ++ [e]) = if e = .started c then [] else e :: sinceStart c h := by
  unfold sinceStart
  rw [List.reverse_append, List.reverse_singleton, List.singleton_append, List.takeWhile_cons]
  by_cases he : e = .started c <;> simp [he]

/-- A start forgets the signals of its chunk and no others. -/
theorem notMem_sinceStart_started {h : List (RetainEvent n)} (hd : .notified d ∉ sinceStart d h ∨ d = c) :
    .notified d ∉ sinceStart d (h ++ [.started c]) := by
  rw [sinceStart_snoc]
  by_cases hdc : d = c
  · simp [hdc]
  · simp [Ne.symm hdc, hd.resolve_right hdc]

theorem notMem_sinceStart_notified {h : List (RetainEvent n)} (hd : .notified d ∉ sinceStart d h)
    (hne : d ≠ c) : .notified d ∉ sinceStart d (h ++ [.notified c]) := by
  rw [sinceStart_snoc]
  simp [hd, hne]

/-! ## A prefetch in flight -/

/-- From `FETCHING` to the entry into the FIFO. -/
def Instr.unretained : Instr n → Bool
  | ensure _ => true
  | reconcile _ => true
  | fit _ => true
  | evict _ _ => true
  | sleep _ => true
  | unpinJustResident ok => ok
  | pad => true
  | read _ => true
  | tail _ => true
  | resolve => true
  | commit => true
  | mark => true
  | retain => true
  | _ => false

/-- The thread is prefetching the chunk and has not put it into the FIFO yet. -/
def Point.InFlight : Point n → Fin n → Prop
  | pinJustResident _ c _, d => d = c
  | job j i, d => j.speculative = true ∧ i.unretained = true ∧ d = j.target
  | _, _ => False

instance (k : Point n) (d : Fin n) : Decidable (k.InFlight d) := by
  unfold Point.InFlight
  induction k using Point.casesOn <;> dsimp only <;> infer_instance

theorem Point.InFlight.mem_base (h : k.InFlight c) : .chunk c ∈ k.base := by
  cases k with
  | pinJustResident jr c' hne =>
    obtain rfl : c = c' := h
    simp [Point.base]
  | job j i =>
    rw [show c = j.target from h.2.2]
    exact j.locks_subset_base i j.mem_locks
  | _ => cases h

/-- What a step does to the FIFO and to the prefetches in flight. -/
structure Keeps (k k' : Point n) (F F' : List (Fin n)) : Prop where
  fifo : ∀ c ∈ F', c ∈ F ∨ k.InFlight c
  flight : ∀ c, k'.InFlight c → k.InFlight c ∨ flightNote k k' = [.started c]

variable {F F' : List (Fin n)}

/-- To a point without a prefetch. -/
theorem Keeps.idle (hF : F' ⊆ F) (hk' : ∀ c, ¬ k'.InFlight c) : Keeps k k' F F' :=
  ⟨fun _ hc => Or.inl (hF hc), fun c hc => absurd hc (hk' c)⟩

/-- Within a job. -/
theorem Keeps.inside (hF : F' ⊆ F) (hi : i'.unretained = true → i.unretained = true) :
    Keeps (.job j i) (.job j i') F F' :=
  ⟨fun _ hc => Or.inl (hF hc), fun _ hc => Or.inl ⟨hc.1, hi hc.2.1, hc.2.2⟩⟩

theorem after_not_inFlight (j : Job n) (c : Fin n) : ¬ j.after.InFlight c := by
  cases j with
  | maybe jr c' hne => exact fun h => absurd h.1 Bool.false_ne_true
  | _ => exact id

theorem afterFault_not_inFlight (cfg : Config n σ) (m : Msg) (c d : Fin n) :
    ¬ (afterFault cfg m c).InFlight d := by
  unfold afterFault
  split
  · exact id
  · exact fun h => absurd h.1 Bool.false_ne_true

theorem afterAccess_not_inFlight (cfg : Config n σ) (c d : Fin n) :
    ¬ (afterAccess cfg c).InFlight d := by
  unfold afterAccess
  split <;> exact id

theorem topNext_unretained (need r : ℕ) (cursor : Fin n) : (topNext need r cursor).unretained = false := by
  unfold topNext
  split <;> rfl

/-! ## The FIFO -/

def Shared.fifo (sh : Shared n σ) : List (Fin n) := sh.region.pinnedPrefetch

@[simp] theorem fifo_hook (sh : Shared n σ) (f : Option (σ → Fin n → σ)) (c : Fin n) :
    (sh.hook f c).fifo = sh.fifo := by
  cases f <;> rfl

@[simp] theorem fifo_padTail (cfg : Config n σ) (sh : Shared n σ) (c : Fin n) :
    (padTail cfg sh c).fifo = sh.fifo := by
  unfold padTail
  split <;> rfl

@[simp] theorem fifo_countFailed (sh : Shared n σ) (j : Job n) : (countFailed sh j).fifo = sh.fifo := by
  cases j <;> rfl

@[simp] theorem fifo_topEnqueue (sh : Shared n σ) (c : Fin n) : (topEnqueue sh c).fifo = sh.fifo := by
  unfold topEnqueue
  split <;> rfl

theorem pinnedPrefetch_release (r : Region n σ) (c : Fin n) :
    (prefetchRetainRelease r c).pinnedPrefetch = r.pinnedPrefetch.erase c := by
  unfold prefetchRetainRelease
  split
  · rfl
  · rename_i hc
    exact (List.erase_of_not_mem hc).symm

theorem pinnedPrefetch_retain (cfg : Config n σ) (r : Region n σ) (c : Fin n) :
    ∀ d ∈ (prefetchRetainOnResident cfg r c).pinnedPrefetch, d ∈ r.pinnedPrefetch ∨ d = c := by
  intro d hd
  unfold prefetchRetainOnResident at hd
  split at hd
  · rename_i oldest rest hfifo
    split at hd
    · refine (List.mem_append.1 hd).imp (fun hm => ?_) List.mem_singleton.1
      rw [hfifo]
      exact List.mem_cons_of_mem _ hm
    · exact (List.mem_append.1 hd).imp id List.mem_singleton.1
  · exact Or.inr (List.mem_singleton.1 hd)

@[simp] theorem fifo_markResident (cfg : Config n σ) (sh : Shared n σ) (j : Job n) :
    (markResident cfg sh j).fifo = sh.fifo := by
  unfold markResident
  split
  · rfl
  · exact fifo_hook _ _ _

theorem fifo_release (sh : Shared n σ) (c : Fin n) :
    (sh.setRegion (prefetchRetainRelease sh.region c)).fifo ⊆ sh.fifo := by
  show (prefetchRetainRelease sh.region c).pinnedPrefetch ⊆ sh.region.pinnedPrefetch
  rw [pinnedPrefetch_release]
  exact List.erase_subset

theorem JobBranch.keeps (hproper : (Point.job j i).Proper) (h : JobBranch cfg io sh j i sh' k') :
    Keeps (.job j i) k' sh.fifo sh'.fifo := by
  cases h with
  | breakPin _ => exact .inside (fifo_release sh _) fun _ => rfl
  | @unpinJustResident jr c hne ok =>
    refine .inside (List.Subset.refl _) fun hi => ?_
    cases ok
    · exact hi
    · rfl
  | pad =>
    rw [fifo_padTail]
    exact .inside (List.Subset.refl _) fun _ => rfl
  | commit =>
    refine .inside (fun d hd => ?_) fun _ => rfl
    cases j <;> exact hd
  | mark =>
    rw [fifo_markResident]
    exact .inside (List.Subset.refl _) fun _ => rfl
  | @unpinTarget _ ok =>
    refine .inside (List.Subset.refl _) fun hi => ?_
    cases ok <;> exact hi
  | abandon =>
    rw [fifo_countFailed]
    exact .idle (List.Subset.refl _) (after_not_inFlight j)
  | retain =>
    -- the chunk enters the FIFO, its flight is over
    refine ⟨fun d hd => ?_, fun d hd => absurd hd.2.1 Bool.false_ne_true⟩
    exact (pinnedPrefetch_retain cfg sh.region j.target d hd).imp id fun he => ⟨hproper rfl, rfl, he⟩
  | finishPrefetch _ =>
    rw [fifo_hook]
    exact .idle (List.Subset.refl _) (after_not_inFlight j)
  | predict _ => exact .idle (List.Subset.refl _) fun _ => id
  | topNeed =>
    refine .inside (List.Subset.refl _) fun hi => ?_
    rw [topNext_unretained] at hi
    exact hi
  | topEnqueue =>
    rw [fifo_topEnqueue]
    refine .inside (List.Subset.refl _) fun hi => ?_
    rw [topNext_unretained] at hi
    exact hi
  | predictNone _ | topStop | topPredict _ _ | unpin =>
    exact .inside (List.Subset.refl _) (by rintro ⟨⟩)
  | finish _ => exact .idle (List.Subset.refl _) (after_not_inFlight j)
  | _ => exact .inside (List.Subset.refl _) fun _ => rfl

theorem exec_keeps (hproper : k.Proper) (hexec : exec cfg t io sh k = .next sh' k') :
    Keeps k k' sh.fifo sh'.fifo := by
  cases exec_branch hexec with
  | job h => exact h.keeps hproper
  | beginSilently _ _ => exact .idle (List.Subset.refl _) (afterFault_not_inFlight cfg _ _)
  | onFault =>
    rw [fifo_hook]
    exact .idle (List.Subset.refl _) (afterFault_not_inFlight cfg _ _)
  | startDemand _ | leaveMaybe _ =>
    exact .idle (List.Subset.refl _) fun _ h => absurd h.1 Bool.false_ne_true
  | @startPrefetch ts c =>
    refine ⟨fun _ hd => Or.inl hd, fun d hd => Or.inr ?_⟩
    rw [show d = c from hd.2.2]
    rfl
  | @startMaybe jr c hne _ =>
    refine ⟨fun _ hd => Or.inl hd, fun d hd => Or.inr ?_⟩
    rw [show d = c from hd]
    rfl
  | pinJustResident => exact ⟨fun _ hd => Or.inl hd, fun _ hd => Or.inl hd.2.2⟩
  | notifySilently _ _ => exact .idle (List.Subset.refl _) (afterAccess_not_inFlight cfg _)
  | onAccess =>
    rw [fifo_hook]
    exact .idle (List.Subset.refl _) (afterAccess_not_inFlight cfg _)
  | release => exact .idle (fifo_release sh _) fun _ => id
  | _ => exact .idle (List.Subset.refl _) fun _ => id

/-! ## Every run -/

/-- The thread that holds the chunk's mutex is prefetching it. -/
def State.InFlight (s : State n σ) (c : Fin n) : Prop :=
  match s.owner (.chunk c) with
  | some t => (s.pc t).point.InFlight c
  | none => False

instance (s : State n σ) (c : Fin n) : Decidable (s.InFlight c) := by
  unfold State.InFlight
  induction s.owner (.chunk c) using Option.casesOn <;> dsimp only <;> infer_instance

/-- The step is not a signal for a chunk whose prefetch is in flight. -/
def NoEarlySignal (a : Action n) (s : State n σ) : Prop :=
  match a with
  | .exec t _ =>
    match (s.pc t).point with
    | .release c => ¬ s.InFlight c
    | _ => True
  | _ => True

instance (a : Action n) (s : State n σ) : Decidable (NoEarlySignal a s) := by
  unfold NoEarlySignal
  induction a using Action.casesOn with
  | exec t io =>
    dsimp only
    induction (s.pc t).point using Point.casesOn <;> dsimp only <;> infer_instance
  | _ => dsimp only; infer_instance

/-- No retained chunk has been signalled since its prefetch started. -/
def SignalsKept (s : State n σ) (h : List (RetainEvent n)) : Prop :=
  ∀ c ∈ s.sh.region.pinnedPrefetch, .notified c ∉ sinceStart c h

/-- Nor has the chunk that the thread is prefetching. -/
def Point.Unsignalled (h : List (RetainEvent n)) (k : Point n) : Prop :=
  ∀ c, k.InFlight c → .notified c ∉ sinceStart c h

structure Unsignalled (s : State n σ) (h : List (RetainEvent n)) : Prop where
  kept : SignalsKept s h
  flight : ∀ t, (s.pc t).point.Unsignalled h

theorem State.inFlight_of_point (hs : Sound cfg s) (h : (s.pc t).point.InFlight c) : s.InFlight c := by
  have howner := (hs.owned t (.chunk c)).2 ((s.pc t).base_subset_holds h.mem_base)
  rw [State.InFlight, howner]
  exact h

theorem flightNote_cases (k k' : Point n) : flightNote k k' = [] ∨
    (∃ c, flightNote k k' = [.started c]) ∨ ∃ c, k = .release c ∧ flightNote k k' = [.notified c] := by
  unfold flightNote
  split
  · exact Or.inr (Or.inl ⟨_, rfl⟩)
  · exact Or.inr (Or.inl ⟨_, rfl⟩)
  · exact Or.inr (Or.inr ⟨_, rfl, rfl⟩)
  · exact Or.inl rfl

theorem Unsignalled.exec {h : List (RetainEvent n)} (hu : Unsignalled s h) (hs : Sound cfg s)
    (hproper : k.Proper) (hpc : s.pc t = .go k) (hexec : Pager.exec cfg t io s.sh k = .next sh' k')
    (hok : ∀ c, k = .release c → ¬ s.InFlight c) :
    Unsignalled (s.arrive t sh' k') (h ++ flightNote k k') := by
  have hkeeps := exec_keeps hproper hexec
  have hflight : k.Unsignalled h := forall_go (P := fun _ k => k.Unsignalled h) hu.flight hpc
  have hfifo : ∀ c ∈ sh'.fifo, .notified c ∉ sinceStart c h :=
    fun c hc => (hkeeps.fifo c hc).elim (hu.kept c) (hflight c)
  rcases flightNote_cases k k' with hnote | ⟨c, hnote⟩ | ⟨c, rfl, hnote⟩
  · -- nothing starts, nothing is signalled
    rw [hnote, List.append_nil]
    refine ⟨hfifo, forall_arrive (P := fun _ k => k.Unsignalled h) hu.flight fun d hd => ?_⟩
    refine (hkeeps.flight d hd).elim (hflight d) fun he => ?_
    rw [hnote] at he
    cases he
  · rw [hnote]
    refine ⟨fun d hd => notMem_sinceStart_started (Or.inl (hfifo d hd)),
      forall_arrive (P := fun _ k => k.Unsignalled (h ++ [.started c]))
        (fun u d hd => notMem_sinceStart_started (Or.inl (hu.flight u d hd))) fun d hd => ?_⟩
    refine notMem_sinceStart_started ((hkeeps.flight d hd).imp (hflight d) fun he => ?_)
    rw [hnote] at he
    exact (RetainEvent.started.inj (List.singleton_inj.1 he)).symm
  · -- the signalled chunk leaves the FIFO
    rw [hnote]
    cases hexec
    refine ⟨fun d hd => ?_, fun u d hd => ?_⟩
    · have hmem : d ∈ s.sh.region.pinnedPrefetch.erase c := by
        rw [← pinnedPrefetch_release]
        exact hd
      obtain ⟨hne, hold⟩ := hs.life.nodup.mem_erase_iff.1 hmem
      exact notMem_sinceStart_notified (hu.kept d hold) hne
    · by_cases hut : u = t
      · subst hut
        rw [point_arrive_self] at hd
        cases hd
      · rw [point_arrive_of_ne hut] at hd
        refine notMem_sinceStart_notified (hu.flight u d hd) ?_
        rintro rfl
        exact hok d rfl (State.inFlight_of_point hs hd)

theorem Unsignalled.append_nil {h : List (RetainEvent n)} (hu : Unsignalled s h) :
    Unsignalled s (h ++ []) := by
  rwa [List.append_nil]

theorem Unsignalled.step {h : List (RetainEvent n)} (hu : Unsignalled s h) (hs : Sound cfg s)
    (hproper : ∀ t, (s.pc t).point.Proper) (hok : NoEarlySignal a s)
    (hstep : Pager.step cfg a s = some s') : Unsignalled s' (h ++ retainNote a s s') := by
  cases moves_of_step hstep with
  | acquire hpc hneeds hfree =>
    have hflight := forall_acquire (P := fun _ k => k.Unsignalled h) hu.flight hpc
    exact Unsignalled.append_nil ⟨hu.kept, hflight⟩
  | giveUp hpc =>
    refine Unsignalled.append_nil ⟨hu.kept, ?_⟩
    exact forall_arrive (P := fun _ k => k.Unsignalled h) hu.flight fun _ => (by rintro ⟨⟩)
  | @exec _ t io k sh k' hpc hexec =>
    have hk : k.Proper := forall_go (P := fun _ k => k.Proper) hproper hpc
    show Unsignalled _ (h ++ flightNote (s.pc t).point ((s.arrive t sh k').pc t).point)
    rw [hpc, point_arrive_self]
    refine hu.exec hs hk hpc hexec ?_
    rintro c rfl
    simpa [NoEarlySignal, hpc, Pc.point] using hok
  | tick _ =>
    exact Unsignalled.append_nil ⟨hu.kept, hu.flight⟩
  | drop _ =>
    exact Unsignalled.append_nil ⟨hu.kept, hu.flight⟩
  | requestStop =>
    exact Unsignalled.append_nil ⟨hu.kept, hu.flight⟩

/-- When no signal comes while the chunk's own prefetch is in flight, no signal is lost: a
retained chunk has not been signalled since its prefetch started. -/
theorem signals_kept (cfg : Config n σ) (p : σ) {h : List (RetainEvent n)}
    (hreach : Reach ((pager cfg p).recorded retainNote) (fun a x => NoEarlySignal a x.1) (s, h)) :
    SignalsKept s h := by
  have hu : Unsignalled s h := by
    refine Reach.recorded_invariant (I := Unsignalled) ?_ (fun a s s' h hr hok hu hs => ?_) hreach
    · exact ⟨by rintro _ ⟨⟩, fun _ _ _ => List.not_mem_nil⟩
    · exact hu.step (Reach.sound hr) (Reach.proper hr) hok hs
  exact hu.kept

theorem retainOne_noEarlySignal : (runIf ((pager fourAhead fourAheadCycle).recorded retainNote)
    (fun a x => NoEarlySignal a x.1) retainOne
    ((pager fourAhead fourAheadCycle).recorded retainNote).init).isSome = true := by
  decide +kernel

theorem signals_kept_fourAhead : ∃ (s : State 4 LoDeclared) (h : List (RetainEvent 4)),
    s.sh.region.pinnedPrefetch = [1] ∧ h = [.started 1] ∧ SignalsKept s h :=
  ⟨_, _, by decide +kernel, by decide +kernel,
    signals_kept fourAhead fourAheadCycle (reach_get retainOne retainOne_noEarlySignal)⟩

/-- Client 1 reads chunk 1 as soon as its pages are mapped, and signals it, before worker 1 puts
it into the FIFO. -/
def signalEarly : List (Action 4) :=
  prefetchOne ++ [.exec (.client 1) { op := .touch 4096 }, .exec (.client 1) {},
    .exec (.client 1) { op := .notify 1 }, .acquire (.client 1), .exec (.client 1) {},
    .acquire (.client 1), .exec (.client 1) {}] ++ retainOne.drop prefetchOne.length

theorem signalEarly_runs : (run ((pager fourAhead fourAheadCycle).recorded retainNote) signalEarly
    ((pager fourAhead fourAheadCycle).recorded retainNote).init).isSome = true := by
  decide +kernel

/-- Chunk 1 is retained although it has been consumed. -/
theorem signal_lost : ¬ ∀ (s : State 4 LoDeclared) (h : List (RetainEvent 4)),
    Reachable ((pager fourAhead fourAheadCycle).recorded retainNote) (s, h) → SignalsKept s h := by
  intro hall
  have hkept := hall _ _ (reachable_get signalEarly signalEarly_runs) 1
  revert hkept
  decide +kernel

end Residctl.Pager
