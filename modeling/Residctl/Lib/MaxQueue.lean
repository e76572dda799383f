import Mathlib.Data.Multiset.AddSub

/-!
# Max-priority queues

The queue is a multiset of entries ordered by `key`. `push` adds an entry; `pop` takes out
one of the entries with the greatest key, whichever it likes, and answers `none` when
there is nothing to take. Equal keys and equal entries are allowed.

`Run key m es m'`: the events `es`, in this order, take the queue from `m` to `m'`. What a
run has pushed and popped accounts for all that it holds.
-/

namespace MaxQueue

variable {β κ : Type*}

/-- A call of the queue, with its answer. -/
inductive Event (β : Type*)
  | push (e : β)
  | pop (out : Option β)
deriving DecidableEq, Repr

/-- One call. -/
inductive Step [LE κ] (key : β → κ) : Multiset β → Event β → Multiset β → Prop
  | push (m : Multiset β) (e : β) : Step key m (.push e) (e ::ₘ m)
  | pop {m : Multiset β} {e : β} (hmax : ∀ x ∈ e ::ₘ m, key x ≤ key e) :
      Step key (e ::ₘ m) (.pop (some e)) m
  | empty : Step key 0 (.pop none) 0

/-- The calls of a run, one after the other. -/
inductive Run [LE κ] (key : β → κ) : Multiset β → List (Event β) → Multiset β → Prop
  | nil (m : Multiset β) : Run key m [] m
  | cons {m m₁ m' : Multiset β} {ev : Event β} {es : List (Event β)}
      (hstep : Step key m ev m₁) (hrun : Run key m₁ es m') : Run key m (ev :: es) m'

/-- The entries that the pushes of a run brought in. -/
def pushed : List (Event β) → Multiset β
  | [] => 0
  | .push e :: es => e ::ₘ pushed es
  | .pop _ :: es => pushed es

/-- The entries that the pops of a run handed out. -/
def popped : List (Event β) → Multiset β
  | [] => 0
  | .push _ :: es => popped es
  | .pop (some e) :: es => e ::ₘ popped es
  | .pop none :: es => popped es

variable [LE κ] {key : β → κ} {m m' : Multiset β} {es : List (Event β)}

/-- Nothing is lost and nothing is made up. -/
theorem Run.conserved (h : Run key m es m') : m' + popped es = m + pushed es := by
  induction h with
  | nil m => rfl
  | cons hstep _ ih =>
    cases hstep with
    | push m e =>
      rw [popped, pushed, ih, Multiset.cons_add, Multiset.add_cons]
    | pop hmax =>
      rw [popped, pushed, Multiset.add_cons, ih, Multiset.cons_add]
    | empty => exact ih

end MaxQueue
