import Mathlib.Data.List.Perm.Basic
import Mathlib.Logic.Function.Basic

/-!
# Sessions

Threads open sessions and close them with an outcome; in between a session may be noted, with a
reason. In a log in which the sessions of every thread follow each other (`InTurn`) each of them
has one outcome, one that fits its reason, and when none is open there are as many outcomes as
sessions (`InTurn.settled`).
-/

namespace Sessions

open Function

variable {T R O : Type*}

inductive Event (T R O : Type*)
  | opened (t : T)
  | noted (t : T) (r : R)
  | closed (t : T) (o : O)
deriving DecidableEq

namespace Event

def thread : Event T R O → T
  | opened t => t
  | noted t _ => t
  | closed t _ => t

def opens : Event T R O → Bool
  | opened _ => true
  | _ => false

def closes : Event T R O → Bool
  | closed _ _ => true
  | _ => false

end Event

/-- Sessions that follow each other, each noted and closed at most once. The last one may be open:
`some r` is its note. -/
inductive Follows (fits : Option R → O → Prop) : List (Event T R O) → Option (Option R) → Prop
  | nil : Follows fits [] none
  | opened {h t} (hh : Follows fits h none) : Follows fits (h ++ [.opened t]) (some none)
  | noted {h t r} (hh : Follows fits h (some none)) : Follows fits (h ++ [.noted t r]) (some (some r))
  | closed {h t r o} (hh : Follows fits h (some r)) (hfits : fits r o) :
      Follows fits (h ++ [.closed t o]) none

variable {fits fits' : Option R → O → Prop} {h : List (Event T R O)} {w : Option (Option R)}
  {stage : T → Option Bool} {b : Option Bool} {t : T} {r : R} {o : O}

theorem Follows.balance (hh : Follows fits h w) :
    h.countP Event.opens = h.countP Event.closes + w.isSome.toNat := by
  induction hh with
  | nil => rfl
  | opened _ ih =>
    rw [List.countP_append, List.countP_append, ih]
    rfl
  | noted _ ih =>
    rw [List.countP_append, List.countP_append, ih]
    rfl
  | closed _ _ ih =>
    rw [List.countP_append, List.countP_append, ih]
    rfl

/-- What the outcomes fit may depend on the notes that occur. -/
theorem Follows.imp {Q : R → Prop} (hh : Follows fits h w) (hnotes : ∀ t r, .noted t r ∈ h → Q r)
    (hfits : ∀ r o, (∀ q, r = some q → Q q) → fits r o → fits' r o) :
    Follows fits' h w ∧ ∀ q, w = some (some q) → Q q := by
  induction hh with
  | nil => exact ⟨.nil, by rintro _ ⟨⟩⟩
  | opened _ ih =>
    have hprev := ih fun t r hmem => hnotes t r (List.mem_append_left _ hmem)
    exact ⟨.opened hprev.1, by rintro _ ⟨⟩⟩
  | @noted h t r _ ih =>
    have hprev := ih fun t r hmem => hnotes t r (List.mem_append_left _ hmem)
    refine ⟨.noted hprev.1, ?_⟩
    rintro _ ⟨⟩
    exact hnotes t r (List.mem_append_right _ (List.mem_singleton_self _))
  | closed _ hfit ih =>
    have hprev := ih fun t r hmem => hnotes t r (List.mem_append_left _ hmem)
    refine ⟨.closed hprev.1 (hfits _ _ (fun q hq => hprev.2 q (congrArg some hq)) hfit), ?_⟩
    rintro _ ⟨⟩

variable [DecidableEq T]

/-- The events of one thread. -/
def ofThread (t : T) (h : List (Event T R O)) : List (Event T R O) := h.filter fun e => e.thread = t

/-- The sessions of every thread follow each other. `stage t` is `none` when `t` has no open
session, else it says whether the session has been noted. -/
def InTurn (fits : Option R → O → Prop) (h : List (Event T R O)) (stage : T → Option Bool) : Prop :=
  ∀ t, ∃ w, Follows fits (ofThread t h) w ∧ w.map Option.isSome = stage t

theorem ofThread_append_self (e : Event T R O) (he : e.thread = t) :
    ofThread t (h ++ [e]) = ofThread t h ++ [e] := by
  simp [ofThread, he]

theorem ofThread_append_of_ne (e : Event T R O) (he : e.thread ≠ t) :
    ofThread t (h ++ [e]) = ofThread t h := by
  simp [ofThread, he]

theorem InTurn.nil (hstage : ∀ t, stage t = none) : InTurn fits ([] : List (Event T R O)) stage :=
  fun t => ⟨none, .nil, (hstage t).symm⟩

/-- An event of thread `t` matters to `t` only. -/
theorem InTurn.snoc (hh : InTurn fits h stage) (e : Event T R O) (he : e.thread = t)
    (hnext : ∀ w, Follows fits (ofThread t h) w → w.map Option.isSome = stage t →
      ∃ w', Follows fits (ofThread t h ++ [e]) w' ∧ w'.map Option.isSome = b) :
    InTurn fits (h ++ [e]) (update stage t b) := by
  intro u
  obtain ⟨w, hw, hstage⟩ := hh u
  by_cases hu : u = t
  · subst hu
    rw [update_self, ofThread_append_self e he]
    exact hnext w hw hstage
  · rw [update_of_ne hu, ofThread_append_of_ne e (he.trans_ne (Ne.symm hu))]
    exact ⟨w, hw, hstage⟩

theorem InTurn.open (hh : InTurn fits h stage) (ht : stage t = none) :
    InTurn fits (h ++ [.opened t]) (update stage t (some false)) := by
  refine hh.snoc _ rfl fun w hw hstage => ⟨some none, ?_, rfl⟩
  rw [ht, Option.map_eq_none_iff] at hstage
  exact .opened (hstage ▸ hw)

theorem InTurn.note (hh : InTurn fits h stage) (ht : stage t = some false) (r : R) :
    InTurn fits (h ++ [.noted t r]) (update stage t (some true)) := by
  refine hh.snoc _ rfl fun w hw hstage => ⟨some (some r), ?_, rfl⟩
  obtain ⟨r', rfl, hr⟩ := Option.map_eq_some_iff.1 (hstage.trans ht)
  -- the session has no note yet
  rw [Option.isSome_eq_false_iff, Option.isNone_iff_eq_none] at hr
  exact .noted (hr ▸ hw)

theorem InTurn.close {seen : Bool} (hh : InTurn fits h stage) (ht : stage t = some seen)
    (hfits : ∀ r, r.isSome = seen → fits r o) :
    InTurn fits (h ++ [.closed t o]) (update stage t none) := by
  refine hh.snoc _ rfl fun w hw hstage => ⟨none, ?_, rfl⟩
  obtain ⟨r, rfl, hr⟩ := Option.map_eq_some_iff.1 (hstage.trans ht)
  exact .closed hw (hfits r hr)

theorem InTurn.imp {Q : R → Prop} (hh : InTurn fits h stage)
    (hnotes : ∀ t r, .noted t r ∈ h → Q r)
    (hfits : ∀ r o, (∀ q, r = some q → Q q) → fits r o → fits' r o) : InTurn fits' h stage := by
  intro t
  obtain ⟨w, hw, hstage⟩ := hh t
  exact ⟨w, (hw.imp (fun u r hmem => hnotes u r (List.mem_filter.1 hmem).1) hfits).1, hstage⟩

/-- A thread without an event has no open session. -/
theorem InTurn.stage_eq_none (hh : InTurn fits h stage) (ht : ofThread t h = []) :
    stage t = none := by
  obtain ⟨w, hw, hstage⟩ := hh t
  have hbalance := hw.balance
  rw [ht] at hbalance
  rw [← hstage]
  cases w with
  | none => rfl
  | some r => exact absurd hbalance (by simp)

theorem count_map_thread (p : Event T R O → Bool) (t : T) :
    ((h.filter p).map Event.thread).count t = (ofThread t h).countP p := by
  rw [List.count, List.countP_map, List.countP_filter, ofThread, List.countP_filter]
  refine List.countP_congr fun e _ => ?_
  simp [Function.comp, and_comm]

/-- When no session is open each has its outcome. -/
theorem InTurn.settled (hh : InTurn fits h stage) (hidle : ∀ t, stage t = none) :
    h.countP Event.opens = h.countP Event.closes := by
  have hperm : ((h.filter Event.opens).map Event.thread).Perm
      ((h.filter Event.closes).map Event.thread) := by
    -- thread by thread; the order of the threads' events does not matter
    refine List.perm_iff_count.2 fun t => ?_
    obtain ⟨w, hw, hstage⟩ := hh t
    rw [hidle t, Option.map_eq_none_iff] at hstage
    subst hstage
    rw [count_map_thread, count_map_thread]
    exact hw.balance
  have hlen := hperm.length_eq
  rwa [List.length_map, List.length_map, ← List.countP_eq_length_filter,
    ← List.countP_eq_length_filter] at hlen

end Sessions
