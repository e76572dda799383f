import Mathlib.Data.List.Perm.Subperm
import Mathlib.Logic.Function.Basic

/-!
# Calls that are served one after another

Threads make calls, and each call is served at one of its steps. The log has both. A point
determines the calls of its thread that are `waiting`; `Ordered` says that the others have been
served, every thread's in the order in which it made them.
-/

namespace Calls

open Function

variable {T C P : Type*}

inductive Event (T C : Type*)
  | called (t : T) (c : C)
  | served (t : T) (c : C)

/-- The calls, in the order in which they began. -/
def called (log : List (Event T C)) : List (T × C) :=
  log.filterMap fun
    | .called t c => some (t, c)
    | .served .. => none

/-- The calls that have been served, in this order. -/
def served (log : List (Event T C)) : List (T × C) :=
  log.filterMap fun
    | .called .. => none
    | .served t c => some (t, c)

section

variable {log : List (Event T C)} {t : T} {c : C}

@[simp] theorem called_call : called (log ++ [.called t c]) = called log ++ [(t, c)] := by
  simp [called]

@[simp] theorem served_call : served (log ++ [.called t c]) = served log := by
  simp [served]

@[simp] theorem called_serve (k : List C) : called (log ++ k.map (.served t)) = called log := by
  simp [called, List.filterMap_map]

@[simp] theorem served_serve (k : List C) :
    served (log ++ k.map (.served t)) = served log ++ k.map (t, ·) := by
  simp [served, List.filterMap_map]

end

variable [DecidableEq T]

/-- The calls of one thread. -/
def ofThread (t : T) (l : List (T × C)) : List C := (l.filter (·.1 = t)).map Prod.snd

section

variable {t u : T} {c : C} {l : List (T × C)}

theorem ofThread_append (k : List C) :
    ofThread t (l ++ k.map (u, ·)) = ofThread t l ++ if u = t then k else [] := by
  unfold ofThread
  rw [List.filter_append, List.map_append, List.filter_map]
  by_cases hu : u = t
  · rw [if_pos hu]
    simp [Function.comp_def, hu]
  · rw [if_neg hu]
    simp [Function.comp_def, hu]

theorem count_ofThread [DecidableEq C] : (ofThread t l).count c = l.count (t, c) := by
  induction l with
  | nil => rfl
  | cons x l ih =>
    rcases x with ⟨u, d⟩
    unfold ofThread at *
    rw [List.filter_cons, List.count_cons]
    by_cases hu : u = t
    · subst hu
      rw [if_pos (by simp), List.map_cons, List.count_cons, ih]
      simp
    · rw [if_neg (by simpa using hu), ih]
      simp [hu]

end

/-- What has been called has been served or waits. -/
def Ordered (waiting : P → List C) (pc : T → P) (log : List (Event T C)) : Prop :=
  ∀ t, ofThread t (called log) = ofThread t (served log) ++ waiting (pc t)

namespace Ordered

variable {waiting : P → List C} {pc : T → P} {log : List (Event T C)} {t : T} {p : P} {c : C}

theorem init (h : ∀ t, waiting (pc t) = []) : Ordered waiting pc [] := by
  intro t
  rw [h t]
  rfl

theorem call (h : Ordered waiting pc log) (hpc : waiting (pc t) = []) (hp : waiting p = [c]) :
    Ordered waiting (update pc t p) (log ++ [.called t c]) := by
  intro u
  have hone : [(t, c)] = [c].map (t, ·) := rfl
  rw [called_call, served_call, hone, ofThread_append, h u, List.append_assoc]
  by_cases hut : t = u
  · subst hut
    rw [hpc, if_pos rfl, update_self, hp]
    rfl
  · rw [if_neg hut, update_of_ne (Ne.symm hut), List.append_nil]

/-- A step that serves the calls `k`; most steps serve none. -/
theorem serve (h : Ordered waiting pc log) {k : List C} (hpc : waiting (pc t) = k ++ waiting p) :
    Ordered waiting (update pc t p) (log ++ k.map (.served t)) := by
  intro u
  rw [called_serve, served_serve, ofThread_append, h u]
  by_cases hut : t = u
  · subst hut
    rw [if_pos rfl, hpc, update_self, List.append_assoc]
  · rw [if_neg hut, update_of_ne (Ne.symm hut), List.append_nil]

theorem count [DecidableEq C] (h : Ordered waiting pc log) (t : T) (c : C) :
    (called log).count (t, c) = (served log).count (t, c) + (waiting (pc t)).count c := by
  rw [← count_ofThread, ← count_ofThread, h t, List.count_append]

theorem subperm (h : Ordered waiting pc log) : (served log).Subperm (called log) := by
  classical
  refine List.subperm_ext_iff.2 fun x _ => ?_
  rw [h.count x.1 x.2]
  exact Nat.le_add_right _ _

/-- When no call waits the served ones are all there are. -/
theorem perm (h : Ordered waiting pc log) (hnone : ∀ t, waiting (pc t) = []) :
    (called log).Perm (served log) := by
  classical
  refine List.perm_iff_count.2 fun x => ?_
  rw [h.count x.1 x.2, hnone x.1]
  rfl

theorem length_lt (h : Ordered waiting pc log) (ht : waiting (pc t) ≠ []) :
    (served log).length < (called log).length := by
  classical
  refine Nat.lt_of_le_of_ne h.subperm.length_le fun heq => ?_
  rcases List.exists_mem_of_ne_nil _ ht with ⟨c, hc⟩
  have hpos := List.count_pos_iff.2 hc
  have hsame := h.count t c
  rw [← (h.subperm.perm_of_length_le (Nat.le_of_eq heq.symm)).count_eq] at hsame
  omega

end Ordered

end Calls
