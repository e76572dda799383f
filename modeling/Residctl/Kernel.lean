import Residctl.Region

/-!
# The kernel side of the region

The memfd, the page table of mapping A and the userfaultfd queue. Mapping B is the
memfd itself: the pager reads and writes it without faulting. A page of mapping A is
readable exactly when `UFFDIO_CONTINUE` mapped it and no later hole punch covered it;
any other access queues one message and blocks the thread until a `UFFDIO_CONTINUE`
or `UFFDIO_WAKE` over the address.
-/

namespace Residctl

/-- `struct uffd_msg` for a page fault. `thread` is the thread it was queued for; the pager
does not read it. -/
structure Msg where
  addr : ℕ
  thread : ℕ
deriving DecidableEq, Repr

structure Kernel where
  /-- unread messages, oldest first -/
  uffd : List Msg
  /-- the address a workload thread is blocked on -/
  waiting : ℕ → Option ℕ
  /-- pages of mapping A that can be read -/
  mapped : ℕ → Bool
  /-- populated pages of the memfd -/
  alloc : ℕ → Bool
  /-- bytes of the memfd -/
  mem : ℕ → UInt8

def Kernel.init : Kernel := ⟨[], fun _ => none, fun _ => false, fun _ => false, fun _ => 0⟩

def pageOf (a : ℕ) : ℕ := a / RESIDCTL_ALIGN

/-- The page lies inside `[lo, lo + len)`. -/
def PageWithin (lo len p : ℕ) : Prop :=
  lo ≤ p * RESIDCTL_ALIGN ∧ (p + 1) * RESIDCTL_ALIGN ≤ lo + len

instance (lo len p : ℕ) : Decidable (PageWithin lo len p) := inferInstanceAs (Decidable (_ ∧ _))

/-- The page has a byte of `[lo, lo + len)`. -/
def PageTouches (lo len p : ℕ) : Prop :=
  0 < len ∧ lo < (p + 1) * RESIDCTL_ALIGN ∧ p * RESIDCTL_ALIGN < lo + len

instance (lo len p : ℕ) : Decidable (PageTouches lo len p) :=
  inferInstanceAs (Decidable (_ ∧ _ ∧ _))

namespace Kernel

/-- Thread `i` faults at `a`; the message carries the page address. -/
def fault (k : Kernel) (i a : ℕ) : Kernel :=
  { k with uffd := k.uffd ++ [⟨alignDown a, i⟩]
           waiting := Function.update k.waiting i (some a) }

/-- `UFFDIO_WAKE`: every thread blocked in the range runs again. -/
def wake (k : Kernel) (lo len : ℕ) : Kernel :=
  { k with waiting := fun i =>
      match k.waiting i with
      | some a => if lo ≤ a ∧ a < lo + len then none else some a
      | none => none }

/-- A wake leaves the threads waiting that are outside its range. -/
theorem wake_waiting {k : Kernel} {lo len i a : ℕ} (h : (k.wake lo len).waiting i = some a) :
    k.waiting i = some a ∧ ¬ (lo ≤ a ∧ a < lo + len) := by
  simp only [wake] at h
  split at h
  · rename_i x hx
    split at h
    · cases h
    · rename_i hout
      obtain rfl := Option.some.inj h
      exact ⟨hx, hout⟩
  · cases h

/-- The ioctl accepts the range: page aligned, every page populated and none mapped. -/
def Continues (k : Kernel) (lo len : ℕ) : Prop :=
  lo % RESIDCTL_ALIGN = 0 ∧ len % RESIDCTL_ALIGN = 0 ∧
    ∀ p < pageOf (lo + len), PageWithin lo len p → k.alloc p = true ∧ k.mapped p = false

instance (k : Kernel) (lo len : ℕ) : Decidable (k.Continues lo len) :=
  inferInstanceAs (Decidable (_ ∧ _ ∧ _))

/-- `UFFDIO_CONTINUE` over an accepted range: map its pages, then wake. -/
def continueRange (k : Kernel) (lo len : ℕ) : Kernel :=
  { k with mapped := fun p => if PageWithin lo len p then true else k.mapped p }.wake lo len

/-- `fallocate(PUNCH_HOLE | KEEP_SIZE)`: bytes read as zero, whole pages are freed and leave
every mapping. -/
def punch (k : Kernel) (lo len : ℕ) : Kernel :=
  { k with
    mapped := fun p => if PageWithin lo len p then false else k.mapped p
    alloc := fun p => if PageWithin lo len p then false else k.alloc p
    mem := fun a => if lo ≤ a ∧ a < lo + len then 0 else k.mem a }

/-- A store of `len` bytes through mapping B. -/
def store (k : Kernel) (lo len : ℕ) (byte : ℕ → UInt8) : Kernel :=
  { k with
    alloc := fun p => if PageTouches lo len p then true else k.alloc p
    mem := fun a => if lo ≤ a ∧ a < lo + len then byte a else k.mem a }

end Kernel

end Residctl
