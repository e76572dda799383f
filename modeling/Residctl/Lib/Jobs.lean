import Mathlib.Data.List.Perm.Basic
import Mathlib.Data.List.Perm.Lattice
import Mathlib.Logic.Function.Basic

/-!
# Jobs, queues and workers

Jobs are put into one of several queues, workers take them from the front and finish
them. A log records what happened. `Inv` connects the log with the queues and with what
the workers have in hand: every queue is a FIFO, and a worker finishes what it takes. When
nobody works, every job that was taken has been finished by the worker that took it
(`Inv.drained`).
-/

namespace Jobs

open Function

variable {κ T α : Type*} [DecidableEq κ]

inductive Event (κ T α : Type*)
  | enqueued (q : κ) (x : α)
  | dequeued (q : κ) (t : T) (x : α)
  | executed (q : κ) (t : T) (x : α)

/-! ## Reading the log -/

/-- The jobs put into queue `q`, oldest first. -/
def enqueued (q : κ) (h : List (Event κ T α)) : List α :=
  h.filterMap fun
    | .enqueued q' x => if q' = q then some x else none
    | _ => none

/-- The jobs taken from queue `q`, with the workers. -/
def dequeued (q : κ) (h : List (Event κ T α)) : List (T × α) :=
  h.filterMap fun
    | .dequeued q' t x => if q' = q then some (t, x) else none
    | _ => none

/-- The finished jobs of queue `q`, with the workers. -/
def executed (q : κ) (h : List (Event κ T α)) : List (T × α) :=
  h.filterMap fun
    | .executed q' t x => if q' = q then some (t, x) else none
    | _ => none

section

variable {q q' : κ} {t u : T} {x : α} {h : List (Event κ T α)}

@[simp] theorem enqueued_put : enqueued q (h ++ [.enqueued q' x]) =
    enqueued q h ++ if q' = q then [x] else [] := by
  unfold enqueued
  rw [List.filterMap_append]
  split <;> simp_all

@[simp] theorem enqueued_take : enqueued q (h ++ [.dequeued q' t x]) = enqueued q h := by
  simp [enqueued]

@[simp] theorem enqueued_finish : enqueued q (h ++ [.executed q' t x]) = enqueued q h := by
  simp [enqueued]

@[simp] theorem dequeued_put : dequeued q (h ++ [.enqueued q' x]) = dequeued q h := by
  simp [dequeued]

@[simp] theorem dequeued_take : dequeued q (h ++ [.dequeued q' t x]) =
    dequeued q h ++ if q' = q then [(t, x)] else [] := by
  unfold dequeued
  rw [List.filterMap_append]
  split <;> simp_all

@[simp] theorem dequeued_finish : dequeued q (h ++ [.executed q' t x]) = dequeued q h := by
  simp [dequeued]

@[simp] theorem executed_put : executed q (h ++ [.enqueued q' x]) = executed q h := by
  simp [executed]

@[simp] theorem executed_take : executed q (h ++ [.dequeued q' t x]) = executed q h := by
  simp [executed]

@[simp] theorem executed_finish : executed q (h ++ [.executed q' t x]) =
    executed q h ++ if q' = q then [(t, x)] else [] := by
  unfold executed
  rw [List.filterMap_append]
  split <;> simp_all

theorem mem_dequeued {e : T × α} : e ∈ dequeued q h ↔ Event.dequeued q e.1 e.2 ∈ h := by
  unfold dequeued
  rw [List.mem_filterMap]
  constructor
  · rintro ⟨ev, hev, heq⟩
    cases ev with
    | dequeued q' t x =>
      have hsome : q' = q ∧ (t, x) = e := by simpa using heq
      obtain ⟨rfl, rfl⟩ := hsome
      exact hev
    | _ => cases heq
  · exact fun hmem => ⟨_, hmem, by simp⟩

end

/-! ## The invariant -/

/-- What a worker has in hand from queue `q`. -/
def inHand (q : κ) (t : T) : Option (κ × α) → List (T × α)
  | some (q', x) => if q' = q then [(t, x)] else []
  | none => []

/-- What thread `t` can do to its job and the queues, and what the log says about it. -/
inductive Step (t : T) :
    Option (κ × α) → (κ → List α) → Option (κ × α) → (κ → List α) → List (Event κ T α) → Prop
  | quiet {w Q} : Step t w Q w Q []
  | put {w Q} (q x) : Step t w Q w (update Q q (Q q ++ [x])) [.enqueued q x]
  | take {Q} (q x rest) (hqueue : Q q = x :: rest) :
      Step t none Q (some (q, x)) (update Q q rest) [.dequeued q t x]
  | finish {Q} (q x) : Step t (some (q, x)) Q none Q [.executed q t x]

structure Inv [DecidableEq T] (W : T → Option (κ × α)) (Q : κ → List α) (h : List (Event κ T α)) :
    Prop where
  fifo : ∀ q, enqueued q h = (dequeued q h).map Prod.snd ++ Q q
  worked : ∀ q t, (dequeued q h).filter (fun e => e.1 = t) =
    (executed q h).filter (fun e => e.1 = t) ++ inHand q t (W t)

variable [DecidableEq T] {W : T → Option (κ × α)} {Q Q' : κ → List α} {h es : List (Event κ T α)}
  {t : T} {w : Option (κ × α)}

theorem Inv.init (hW : ∀ t, W t = none) (hQ : ∀ q, Q q = []) : Inv W Q [] where
  fifo q := (hQ q).symm
  worked q t := by
    rw [hW t]
    rfl

theorem Inv.put (hinv : Inv W Q h) (q : κ) (x : α) :
    Inv W (update Q q (Q q ++ [x])) (h ++ [.enqueued q x]) := by
  refine ⟨fun q' => ?_, fun q' t => ?_⟩
  · rw [enqueued_put, dequeued_put, hinv.fifo q']
    by_cases hq : q' = q
    · subst hq
      simp
    · simp [hq, Ne.symm hq]
  · rw [dequeued_put, executed_put]
    exact hinv.worked q' t

theorem Inv.take (hinv : Inv W Q h) (q : κ) (x : α) {rest : List α} (hqueue : Q q = x :: rest)
    (ht : W t = none) :
    Inv (update W t (some (q, x))) (update Q q rest) (h ++ [.dequeued q t x]) := by
  refine ⟨fun q' => ?_, fun q' u => ?_⟩
  · rw [enqueued_take, dequeued_take, hinv.fifo q']
    by_cases hq : q' = q
    · subst hq
      simp [hqueue]
    · simp [hq, Ne.symm hq]
  · rw [dequeued_take, executed_take, List.filter_append, hinv.worked q' u]
    by_cases hu : u = t
    · subst hu
      rw [ht, update_self]
      by_cases hq : q = q' <;> simp [inHand, hq]
    · rw [update_of_ne hu]
      by_cases hq : q = q' <;> simp [hq, Ne.symm hu]

theorem Inv.finish (hinv : Inv W Q h) (q : κ) (x : α) (ht : W t = some (q, x)) :
    Inv (update W t none) Q (h ++ [.executed q t x]) := by
  refine ⟨fun q' => ?_, fun q' u => ?_⟩
  · rw [enqueued_finish, dequeued_finish]
    exact hinv.fifo q'
  · rw [dequeued_finish, executed_finish, List.filter_append, hinv.worked q' u]
    by_cases hu : u = t
    · subst hu
      rw [ht, update_self]
      by_cases hq : q = q' <;> simp [inHand, hq]
    · rw [update_of_ne hu]
      by_cases hq : q = q' <;> simp [hq, Ne.symm hu]

theorem Inv.step (hinv : Inv W Q h) (hstep : Step t (W t) Q w Q' es) :
    Inv (update W t w) Q' (h ++ es) := by
  generalize hw : W t = w₀ at hstep
  cases hstep with
  | quiet =>
    rw [← hw, update_eq_self, List.append_nil]
    exact hinv
  | put q x =>
    rw [← hw, update_eq_self]
    exact hinv.put q x
  | take q x rest hqueue => exact hinv.take q x hqueue hw
  | finish q x => exact hinv.finish q x hw

/-- When nobody works, every job has been finished by the worker that took it. -/
theorem Inv.drained [DecidableEq α] (hinv : Inv W Q h) (hidle : ∀ t, W t = none) (q : κ) :
    (executed q h).Perm (dequeued q h) := by
  rw [List.perm_iff_count]
  rintro ⟨t, x⟩
  have hworked := hinv.worked q t
  rw [hidle t, inHand, List.append_nil] at hworked
  have hcount := congrArg (List.count (t, x)) hworked
  rw [List.count_filter (by simp), List.count_filter (by simp)] at hcount
  exact hcount.symm

end Jobs
