import Mathlib.Logic.Function.Basic

/-!
# Runs of a labelled machine

A machine takes one action at a time; an interleaving of threads is a sequence of
actions. `Reach ok` are the states of the runs in which every action is taken from a
state that allows it, so that a condition on the steps of a run can be stated.
`Reach.invariant` is the induction over such runs.
-/

namespace Runs

/-- `step a s = none`: the action is not enabled. -/
structure Machine (S A : Type*) where
  init : S
  step : A → S → Option S

variable {S A : Type*} {M : Machine S A} {ok ok' : A → S → Prop}

/-- The states of the runs all of whose steps meet the condition `ok`. -/
inductive Reach (M : Machine S A) (ok : A → S → Prop) : S → Prop
  | init : Reach M ok M.init
  | step {a s s'} (hreach : Reach M ok s) (hok : ok a s) (hstep : M.step a s = some s') :
      Reach M ok s'

/-- The states of all runs. -/
def Reachable (M : Machine S A) : S → Prop := Reach M fun _ _ => True

theorem Reach.mono (h : ∀ a s, ok a s → ok' a s) {s : S} (hs : Reach M ok s) :
    Reach M ok' s := by
  induction hs with
  | init => exact Reach.init
  | step _ hok hstep ih => exact Reach.step ih (h _ _ hok) hstep

theorem Reach.reachable {s : S} (hs : Reach M ok s) : Reachable M s :=
  hs.mono fun _ _ _ => trivial

/-- What holds initially and is kept by every allowed step holds on every run. -/
theorem Reach.invariant {I : S → Prop} (hinit : I M.init)
    (hstep : ∀ a s s', Reach M ok s → ok a s → I s → M.step a s = some s' → I s') {s : S}
    (hs : Reach M ok s) : I s := by
  induction hs with
  | init => exact hinit
  | step hreach hok hs' ih => exact hstep _ _ _ hreach hok ih hs'

/-- A machine that maps onto another one, step by step. -/
theorem Reach.map {S' : Type*} {N : Machine S' A} {f : S → S'} {okN : A → S' → Prop}
    (hinit : f M.init = N.init)
    (hstep : ∀ a s s', Reach M ok s → ok a s → M.step a s = some s' →
      okN a (f s) ∧ N.step a (f s) = some (f s')) {s : S} (hs : Reach M ok s) :
    Reach N okN (f s) := by
  induction hs with
  | init =>
    rw [hinit]
    exact Reach.init
  | step hreach hok hs' ih =>
    obtain ⟨hokN, hN⟩ := hstep _ _ _ hreach hok hs'
    exact Reach.step ih hokN hN

/-- Take the actions one after the other. -/
def run (M : Machine S A) : List A → S → Option S
  | [], s => some s
  | a :: as, s => (M.step a s).bind (run M as)

theorem Reachable.run {as : List A} {s s' : S} (hs : Reachable M s) (h : run M as s = some s') :
    Reachable M s' := by
  induction as generalizing s with
  | nil =>
    cases h
    exact hs
  | cons a as ih =>
    rcases Option.bind_eq_some_iff.1 h with ⟨s₁, hs₁, hrest⟩
    exact ih (Reach.step hs trivial hs₁) hrest

/-- Take the actions, each from a state that allows it. -/
def runIf (M : Machine S A) (ok : A → S → Prop) [∀ a s, Decidable (ok a s)] : List A → S → Option S
  | [], s => some s
  | a :: as, s => if ok a s then (M.step a s).bind (runIf M ok as) else none

theorem Reach.runIf [∀ a s, Decidable (ok' a s)] (h : ∀ a s, ok' a s → ok a s) {as : List A}
    {s s' : S} (hs : Reach M ok s) (hrun : runIf M ok' as s = some s') : Reach M ok s' := by
  induction as generalizing s with
  | nil =>
    cases hrun
    exact hs
  | cons a as ih =>
    rw [Runs.runIf] at hrun
    split at hrun
    · rename_i hok
      rcases Option.bind_eq_some_iff.1 hrun with ⟨s₁, hs₁, hrest⟩
      exact ih (Reach.step hs (h a s hok) hs₁) hrest
    · cases hrun

theorem reach_get [∀ a s, Decidable (ok a s)] (as : List A)
    (h : (runIf M ok as M.init).isSome = true) : Reach M ok ((runIf M ok as M.init).get h) :=
  Reach.runIf (fun _ _ => id) Reach.init (Option.some_get h).symm

/-! ## History variables -/

/-- The machine with a record of what `note` says about every step. -/
def Machine.recorded {E : Type*} (M : Machine S A) (note : A → S → S → List E) :
    Machine (S × List E) A where
  init := (M.init, [])
  step a s := (M.step a s.1).map fun s' => (s', s.2 ++ note a s.1 s')

section

variable {E : Type*} {note : A → S → S → List E}

/-- A step of the recorded machine is a step of the machine. -/
theorem recorded_step {a : A} {s s' : S × List E} (h : (M.recorded note).step a s = some s') :
    M.step a s.1 = some s'.1 ∧ s'.2 = s.2 ++ note a s.1 s'.1 := by
  rcases Option.map_eq_some_iff.1 h with ⟨s₁, hs₁, rfl⟩
  exact ⟨hs₁, rfl⟩

theorem Reach.of_recorded {s : S × List E} (h : Reach (M.recorded note) (fun a s => ok a s.1) s) :
    Reach M ok s.1 := by
  induction h with
  | init => exact Reach.init
  | step _ hok hstep ih => exact Reach.step ih hok (recorded_step hstep).1

/-- If the records agree, the recorded machines map onto each other too. -/
theorem Reach.map_recorded {S' : Type*} {N : Machine S' A} {f : S → S'} (okN : A → S' → Prop)
    {noteN : A → S' → S' → List E} (hinit : f M.init = N.init)
    (hstep : ∀ a s s', Reach M ok s → ok a s → M.step a s = some s' →
      okN a (f s) ∧ N.step a (f s) = some (f s'))
    (hnote : ∀ a s s', note a s s' = noteN a (f s) (f s')) {s : S} {l : List E}
    (hs : Reach (M.recorded note) (fun a x => ok a x.1) (s, l)) :
    Reach (N.recorded noteN) (fun a x => okN a x.1) (f s, l) := by
  refine Reach.map (f := fun x : S × List E => (f x.1, x.2)) (Prod.ext hinit rfl) ?_ hs
  intro a x x' hreach hok hx
  obtain ⟨hM, hrecord⟩ := recorded_step hx
  obtain ⟨hokN, hN⟩ := hstep a x.1 x'.1 (Reach.of_recorded hreach) hok hM
  refine ⟨hokN, ?_⟩
  show (N.step a (f x.1)).map _ = _
  rw [hN, hrecord, hnote]
  rfl

theorem step_recorded {a : A} {s s' : S} (h : M.step a s = some s') (l : List E) :
    (M.recorded note).step a (s, l) = some (s', l ++ note a s s') := by
  show (M.step a s).map _ = _
  rw [h]
  rfl

/-- Every run has its record. -/
theorem Reach.exists_recorded (note : A → S → S → List E) {s : S} (h : Reach M ok s) :
    ∃ l, Reach (M.recorded note) (fun a s => ok a s.1) (s, l) := by
  induction h with
  | init => exact ⟨[], Reach.init⟩
  | @step a s s' _ hok hstep ih =>
    obtain ⟨l, hl⟩ := ih
    exact ⟨l ++ note a s s', Reach.step hl hok (step_recorded hstep l)⟩

theorem Reachable.of_recorded {s : S × List E} (h : Reachable (M.recorded note) s) :
    Reachable M s.1 :=
  Reach.of_recorded h

/-- What holds of the initial state without a record, and of the state and the record after every
allowed step, holds on every run. -/
theorem Reach.recorded_invariant {I : S → List E → Prop} (hinit : I M.init [])
    (hstep : ∀ a s s' l, Reach M ok s → ok a s → I s l → M.step a s = some s' →
      I s' (l ++ note a s s')) {s : S} {l : List E}
    (hs : Reach (M.recorded note) (fun a x => ok a x.1) (s, l)) : I s l := by
  refine Reach.invariant (I := fun x : S × List E => I x.1 x.2) hinit
    (fun a x x' hr hok hI hx => ?_) hs
  obtain ⟨hs', hnote⟩ := recorded_step hx
  rw [hnote]
  exact hstep a x.1 x'.1 x.2 (Reach.of_recorded hr) hok hI hs'

theorem Reachable.recorded_invariant {I : S → List E → Prop} (hinit : I M.init [])
    (hstep : ∀ a s s' l, Reachable M s → I s l → M.step a s = some s' → I s' (l ++ note a s s'))
    {s : S} {l : List E} (hs : Reachable (M.recorded note) (s, l)) : I s l :=
  Reach.recorded_invariant hinit
    (fun a s s' l (hr : Reach M (fun _ _ => True) s) _ hI => hstep a s s' l hr hI) hs

end

/-! ## Runs that can be evaluated -/

theorem reachable_get (as : List A) (h : (run M as M.init).isSome = true) :
    Reachable M ((run M as M.init).get h) :=
  Reachable.run Reach.init (Option.some_get h).symm

end Runs
