import Residctl.Budget
import Residctl.Lib.Ledger

/-!
# The life of a chunk, without threads

What the budget code is for: every byte that is resident or promised is counted once,
and nothing that is being fetched or is pinned is evicted. The state is the part of the
region that this depends on, together with what the holder of each chunk's lock is doing
to it (`Role`). `Step` has one rule for each thing a thread can do to a chunk; `Inv` is
kept by every rule.
-/

namespace Residctl

open Function Ledger

variable {n : ℕ} {σ : Type}

/-- What the holder of a chunk's lock knows of the chunk, with the number of pins it has
taken. -/
inductive Role
  | none
  | absent (pins : ℕ)
  /-- `FETCHING`, nothing reserved -/
  | fetching (pins : ℕ)
  | reserved (pins : ℕ)
  /-- reserved, and the pages are mapped -/
  | mapped (pins : ℕ)
  /-- committed, not yet `RESIDENT` -/
  | committed (pins : ℕ)
  | resident (pins : ℕ)
deriving DecidableEq, Repr

namespace Role

@[simp] def pins : Role → ℕ
  | none => 0
  | absent p => p
  | fetching p => p
  | reserved p => p
  | mapped p => p
  | committed p => p
  | resident p => p

@[simp] def withPins : Role → ℕ → Role
  | none, _ => none
  | absent _, p => absent p
  | fetching _, p => fetching p
  | reserved _, p => reserved p
  | mapped _, p => mapped p
  | committed _, p => committed p
  | resident _, p => resident p

/-- The role allows the chunk's state. -/
@[simp] def Fits : Role → ChunkState → Prop
  | none, _ => True
  | absent _, st => st = .absent
  | fetching _, st => st = .fetching
  | reserved _, st => st = .fetching
  | mapped _, st => st = .fetching
  | committed _, st => st = .fetching
  | resident _, st => st = .resident

/-- The chunk's length is in `reserved_bytes`. -/
def Reserves : Role → Prop
  | none => False
  | absent _ => False
  | fetching _ => False
  | reserved _ => True
  | mapped _ => True
  | committed _ => False
  | resident _ => False

/-- The chunk's length is in `resident_bytes` before the chunk is `RESIDENT`. -/
def Commits : Role → Prop
  | none => False
  | absent _ => False
  | fetching _ => False
  | reserved _ => False
  | mapped _ => False
  | committed _ => True
  | resident _ => False

instance : DecidablePred Reserves := fun r => by cases r <;> unfold Reserves <;> infer_instance

instance : DecidablePred Commits := fun r => by cases r <;> unfold Commits <;> infer_instance

@[simp] theorem reserves_none : ¬ none.Reserves := id

@[simp] theorem commits_none : ¬ none.Commits := id

theorem commits_withPins (r : Role) (p : ℕ) : (r.withPins p).Commits ↔ r.Commits := by
  cases r <;> rfl

theorem reserves_withPins (r : Role) (p : ℕ) : (r.withPins p).Reserves ↔ r.Reserves := by
  cases r <;> rfl

/-- Nothing would be lost if the holder forgot about the chunk. -/
def Light (r : Role) : Prop := r.pins = 0 ∧ ¬ r.Reserves ∧ ¬ r.Commits

end Role

/-- The region's accounting and the roles of the lock holders. -/
structure Life (n : ℕ) where
  state : Fin n → ChunkState
  pin : Fin n → ℕ
  /-- the retention FIFO, oldest first -/
  fifo : List (Fin n)
  resident : ℕ
  reserved : ℕ
  role : Fin n → Role

def Region.life (r : Region n σ) (ρ : Fin n → Role) : Life n where
  state c := (r.chunks c).state
  pin c := (r.chunks c).pin
  fifo := r.pinnedPrefetch
  resident := r.residentBytes
  reserved := r.reservedBytes
  role := ρ

namespace Life

/-- Change one chunk. -/
def set (s : Life n) (c : Fin n) (st : ChunkState) (pin : ℕ) (r : Role) : Life n :=
  { s with state := update s.state c st, pin := update s.pin c pin, role := update s.role c r }

/-- The oldest retained chunk makes room for a new one. -/
def dropOldest (s : Life n) (cap : ℕ) : Life n :=
  match s.fifo with
  | oldest :: rest =>
    if s.fifo.length ≥ cap then
      { s.set oldest (s.state oldest) (s.pin oldest - 1) (s.role oldest) with fifo := rest }
    else s
  | [] => s

/-- What a thread may do. The first index is the chunk that is evicted, if one is. -/
inductive Step (len : Fin n → ℕ) (budget cap : ℕ) : Option (Fin n) → Life n → Life n → Prop
  | stay (s) : Step len budget cap none s s
  /-- learn the state of a chunk, or drop its lock -/
  | look (s c r) (hold : (s.role c).Light) (hnew : r.Light) (hfits : r.Fits (s.state c)) :
      Step len budget cap none s (s.set c (s.state c) (s.pin c) r)
  | begin (s c q) (hst : s.state c = .absent) (hq : (s.role c).pins + q ≤ 2) :
      Step len budget cap none s
        (s.set c .fetching (s.pin c + q) (.fetching ((s.role c).pins + q)))
  | pinUp (s c) (hrole : s.role c ≠ .none) (hp : (s.role c).pins + 1 ≤ 2)
      (hres : s.state c ≠ .resident ∨ 0 < (s.role c).pins) :
      Step len budget cap none s
        (s.set c (s.state c) (s.pin c + 1) ((s.role c).withPins ((s.role c).pins + 1)))
  | pinDown (s c) (hp : 0 < (s.role c).pins) :
      Step len budget cap none s
        (s.set c (s.state c) (s.pin c - 1) ((s.role c).withPins ((s.role c).pins - 1)))
  | reserve (s c p) (hrole : s.role c = .fetching p)
      (hfit : s.resident + s.reserved + len c ≤ budget) :
      Step len budget cap none s
        { s.set c (s.state c) (s.pin c) (.reserved p) with reserved := s.reserved + len c }
  | map (s c p) (hrole : s.role c = .reserved p) :
      Step len budget cap none s (s.set c (s.state c) (s.pin c) (.mapped p))
  | commit (s c p q) (hrole : s.role c = .mapped p) (hq : p + q ≤ 2) :
      Step len budget cap none s
        { s.set c (s.state c) (s.pin c + q) (.committed (p + q)) with
          reserved := s.reserved - len c, resident := s.resident + len c }
  | mark (s c p) (hrole : s.role c = .committed p) :
      Step len budget cap none s (s.set c .resident (s.pin c) (.resident p))
  | abandon (s c) (hst : s.state c = .fetching) (hrole : (s.role c).Light) :
      Step len budget cap none s (s.set c .absent (s.pin c) .none)
  | evict (s v) (hst : s.state v = .resident) (hpin : s.pin v = 0) (hrole : s.role v = .none) :
      Step len budget cap (some v) s
        { s.set v .absent (s.pin v) .none with resident := s.resident - len v }
  | release (s v) (hv : v ∈ s.fifo) :
      Step len budget cap none s
        { s.set v (s.state v) (s.pin v - 1) (s.role v) with fifo := s.fifo.erase v }
  | retain (s c) (hrole : s.role c = .resident 1) :
      Step len budget cap none s
        { (s.dropOldest cap).set c (s.state c) (s.pin c) (.resident 0) with
          fifo := (s.dropOldest cap).fifo ++ [c] }

/-- The chunk is counted in `resident`. -/
def Counted (s : Life n) (c : Fin n) : Prop := s.state c = .resident ∨ (s.role c).Commits

instance (s : Life n) (c : Fin n) : Decidable (s.Counted c) := inferInstanceAs (Decidable (_ ∨ _))

structure Inv (len : Fin n → ℕ) (budget cap : ℕ) (s : Life n) : Prop where
  fits : ∀ c, (s.role c).Fits (s.state c)
  pin : ∀ c, s.pin c = s.fifo.count c + (s.role c).pins
  pins_le : ∀ c, (s.role c).pins ≤ 2
  nodup : s.fifo.Nodup
  retained : ∀ c ∈ s.fifo, s.state c = .resident ∧ (s.role c).pins = 0
  cap : s.fifo.length ≤ cap
  resident : s.resident = total len s.Counted
  reserved : s.reserved = total len fun c => (s.role c).Reserves
  budget : s.resident + s.reserved ≤ budget

/-! ## The invariant is kept -/

variable {len : Fin n → ℕ} {budget cap : ℕ} {s s' : Life n} {c v : Fin n}

@[simp] theorem set_state_self (s : Life n) (c : Fin n) (st : ChunkState) (p : ℕ) (r : Role) :
    (s.set c st p r).state c = st := update_self _ _ _

@[simp] theorem set_pin_self (s : Life n) (c : Fin n) (st : ChunkState) (p : ℕ) (r : Role) :
    (s.set c st p r).pin c = p := update_self _ _ _

@[simp] theorem set_role_self (s : Life n) (c : Fin n) (st : ChunkState) (p : ℕ) (r : Role) :
    (s.set c st p r).role c = r := update_self _ _ _

@[simp] theorem set_resident (s : Life n) (c : Fin n) (st : ChunkState) (p : ℕ) (r : Role) :
    (s.set c st p r).resident = s.resident := rfl

@[simp] theorem set_reserved (s : Life n) (c : Fin n) (st : ChunkState) (p : ℕ) (r : Role) :
    (s.set c st p r).reserved = s.reserved := rfl

@[simp] theorem set_fifo (s : Life n) (c : Fin n) (st : ChunkState) (p : ℕ) (r : Role) :
    (s.set c st p r).fifo = s.fifo := rfl

theorem set_state_of_ne (s : Life n) {c d : Fin n} (h : d ≠ c) (st : ChunkState) (p : ℕ)
    (r : Role) : (s.set c st p r).state d = s.state d := update_of_ne h _ _

theorem set_pin_of_ne (s : Life n) {c d : Fin n} (h : d ≠ c) (st : ChunkState) (p : ℕ)
    (r : Role) : (s.set c st p r).pin d = s.pin d := update_of_ne h _ _

theorem set_role_of_ne (s : Life n) {c d : Fin n} (h : d ≠ c) (st : ChunkState) (p : ℕ)
    (r : Role) : (s.set c st p r).role d = s.role d := update_of_ne h _ _

/-- A change of one chunk and of the counters, with the retention FIFO as it is. -/
theorem Inv.set (h : Inv len budget cap s) {st : ChunkState} {p R V : ℕ} {r : Role}
    (hfits : r.Fits st) (hpin : p + (s.role c).pins = s.pin c + r.pins) (hle : r.pins ≤ 2)
    (hfifo : c ∈ s.fifo → st = .resident ∧ r.pins = 0)
    (hres : R + (if s.Counted c then len c else 0) =
      s.resident + (if st = .resident ∨ r.Commits then len c else 0))
    (hrsv : V + (if (s.role c).Reserves then len c else 0) =
      s.reserved + (if r.Reserves then len c else 0))
    (hbud : R + V ≤ budget) :
    Inv len budget cap { s.set c st p r with resident := R, reserved := V } := by
  have hstate : ∀ d, d ≠ c → (s.set c st p r).state d = s.state d :=
    fun d hd => set_state_of_ne s hd st p r
  have hrole : ∀ d, d ≠ c → (s.set c st p r).role d = s.role d :=
    fun d hd => set_role_of_ne s hd st p r
  refine ⟨fun d => ?_, fun d => ?_, fun d => ?_, h.nodup, fun d hd => ?_, h.cap, ?_, ?_, hbud⟩
  · by_cases hd : d = c
    · subst hd
      simpa using hfits
    · simpa [hstate d hd, hrole d hd] using h.fits d
  · by_cases hd : d = c
    · subst hd
      have := h.pin d
      simp only [set_pin_self, set_role_self]
      show p = s.fifo.count d + r.pins
      omega
    · simpa [set_pin_of_ne s hd, hrole d hd] using h.pin d
  · by_cases hd : d = c
    · subst hd
      simpa using hle
    · simpa [hrole d hd] using h.pins_le d
  · by_cases hdc : d = c
    · subst hdc
      simpa using hfifo hd
    · simpa [hstate d hdc, hrole d hdc] using h.retained d hd
  · have htotal := total_update (w := len) (p := s.Counted) (q := (s.set c st p r).Counted) (c := c)
      fun d hd => by rw [Counted, hstate d hd, hrole d hd, Counted]
    have hself : (s.set c st p r).Counted c ↔ st = .resident ∨ r.Commits := by
      rw [Counted, set_state_self, set_role_self]
    simp only [hself] at htotal
    have hold := h.resident
    show R = total len (s.set c st p r).Counted
    omega
  · have htotal := total_update (w := len) (p := fun d => (s.role d).Reserves)
      (q := fun d => ((s.set c st p r).role d).Reserves) (c := c)
      fun d hd => by rw [hrole d hd]
    simp only [set_role_self] at htotal
    have hold := h.reserved
    show V = total len fun d => ((s.set c st p r).role d).Reserves
    omega

/-- A change of one chunk that moves no bytes. -/
theorem Inv.set_keep (h : Inv len budget cap s) {st : ChunkState} {p : ℕ} {r : Role}
    (hfits : r.Fits st) (hpin : p + (s.role c).pins = s.pin c + r.pins) (hle : r.pins ≤ 2)
    (hfifo : c ∈ s.fifo → st = .resident ∧ r.pins = 0)
    (hres : st = .resident ∨ r.Commits ↔ s.Counted c)
    (hrsv : r.Reserves ↔ (s.role c).Reserves) : Inv len budget cap (s.set c st p r) :=
  h.set hfits hpin hle hfifo (by simp only [hres]) (by simp only [hrsv]) h.budget

/-- A retained chunk leaves the FIFO and loses its pin. -/
theorem Inv.release (h : Inv len budget cap s) (hv : v ∈ s.fifo) :
    Inv len budget cap { s.set v (s.state v) (s.pin v - 1) (s.role v) with
      fifo := s.fifo.erase v } := by
  have hstate : (s.set v (s.state v) (s.pin v - 1) (s.role v)).state = s.state :=
    update_eq_self v s.state
  have hrole : (s.set v (s.state v) (s.pin v - 1) (s.role v)).role = s.role :=
    update_eq_self v s.role
  refine ⟨?_, fun d => ?_, ?_, h.nodup.erase v, ?_, ?_, ?_, ?_, h.budget⟩
  · simpa [hstate, hrole] using h.fits
  · have hd := h.pin d
    simp only [hrole]
    by_cases hdv : d = v
    · subst hdv
      have hone : s.fifo.count d = 1 := List.count_eq_one_of_mem h.nodup hv
      rw [set_pin_self, List.count_erase_self]
      omega
    · rw [set_pin_of_ne s hdv, List.count_erase_of_ne hdv]
      exact hd
  · simpa [hrole] using h.pins_le
  · intro d hd
    simpa [hstate, hrole] using h.retained d (List.mem_of_mem_erase hd)
  · exact (List.length_erase_le).trans h.cap
  · refine h.resident.trans (total_congr fun d => ?_)
    simp only [Counted, hstate, hrole]
  · refine h.reserved.trans (total_congr fun d => ?_)
    simp only [hrole]

/-- There is room in the FIFO, unless it has no capacity at all. -/
theorem Inv.dropOldest (h : Inv len budget cap s) (hcap : 1 ≤ cap) :
    Inv len budget cap (s.dropOldest cap) ∧ (s.dropOldest cap).fifo.length < cap := by
  unfold Life.dropOldest
  split
  · rename_i oldest rest hfifo
    split
    · have hrel := h.release (v := oldest) (by simp [hfifo])
      rw [hfifo, List.erase_cons_head] at hrel
      refine ⟨hrel, ?_⟩
      have := h.cap
      simp only [hfifo, List.length_cons] at this
      show rest.length < cap
      omega
    · rename_i hlt
      exact ⟨h, Nat.lt_of_not_ge hlt⟩
  · rename_i hfifo
    exact ⟨h, by rw [hfifo]; exact hcap⟩

theorem dropOldest_state (s : Life n) (cap : ℕ) : (s.dropOldest cap).state = s.state := by
  unfold Life.dropOldest
  split
  · split
    · exact update_eq_self _ s.state
    · rfl
  · rfl

theorem dropOldest_role (s : Life n) (cap : ℕ) : (s.dropOldest cap).role = s.role := by
  unfold Life.dropOldest
  split
  · split
    · exact update_eq_self _ s.role
    · rfl
  · rfl

/-- Only a retained chunk loses a pin. -/
theorem dropOldest_pin (s : Life n) (cap : ℕ) (hc : c ∉ s.fifo) :
    (s.dropOldest cap).pin c = s.pin c := by
  unfold Life.dropOldest
  split
  · rename_i oldest rest hfifo
    have hne : c ≠ oldest := fun he => hc (by simp [hfifo, he])
    split
    · exact set_pin_of_ne s hne (s.state oldest) (s.pin oldest - 1) (s.role oldest)
    · rfl
  · rfl

theorem dropOldest_fifo_subset (s : Life n) (cap : ℕ) : (s.dropOldest cap).fifo ⊆ s.fifo := by
  unfold Life.dropOldest
  split
  · rename_i oldest rest hfifo
    split
    · rw [hfifo]
      exact List.subset_cons_self _ _
    · exact fun _ h => h
  · exact fun _ h => h

theorem Inv.notMem_fifo (h : Inv len budget cap s) (hp : 0 < (s.role c).pins) : c ∉ s.fifo := by
  intro hc
  have := (h.retained c hc).2
  omega

/-- A completed prefetch keeps its pin as the retention pin. -/
theorem Inv.retain (h : Inv len budget cap s) (hcap : 1 ≤ cap) (hrole : s.role c = .resident 1) :
    Inv len budget cap { (s.dropOldest cap).set c (s.state c) (s.pin c) (.resident 0) with
      fifo := (s.dropOldest cap).fifo ++ [c] } := by
  have hpins : 0 < (s.role c).pins := by
    rw [hrole]
    exact Nat.zero_lt_one
  have hc : c ∉ s.fifo := h.notMem_fifo hpins
  rcases h.dropOldest hcap with ⟨hd, hroom⟩
  have hcd : c ∉ (s.dropOldest cap).fifo := fun hm => hc (dropOldest_fifo_subset s cap hm)
  have hst : s.state c = .resident := by
    have := h.fits c
    rwa [hrole] at this
  have hpin : s.pin c = 1 := by
    rw [h.pin c, hrole, List.count_eq_zero_of_not_mem hc]
    rfl
  rw [← dropOldest_pin s cap hc] at hpin ⊢
  rw [← dropOldest_state s cap] at hst ⊢
  rw [← dropOldest_role s cap] at hrole
  generalize s.dropOldest cap = s₁ at *
  -- the pin changes hands: from the role to the FIFO
  refine ⟨fun d => ?_, fun d => ?_, fun d => ?_, ?_, fun d hdm => ?_, ?_, ?_, ?_, hd.budget⟩
  · by_cases hdc : d = c
    · subst hdc
      simpa using hst
    · simpa [set_state_of_ne s₁ hdc, set_role_of_ne s₁ hdc] using hd.fits d
  · by_cases hdc : d = c
    · subst hdc
      have hzero : s₁.fifo.count d = 0 := List.count_eq_zero_of_not_mem hcd
      simp [hpin, hzero, Role.pins]
    · have hne : ¬ c = d := fun he => hdc he.symm
      simpa [set_pin_of_ne s₁ hdc, set_role_of_ne s₁ hdc, List.count_append, hne] using hd.pin d
  · by_cases hdc : d = c
    · subst hdc
      simp [Role.pins]
    · simpa [set_role_of_ne s₁ hdc] using hd.pins_le d
  · rw [List.nodup_append]
    refine ⟨hd.nodup, List.nodup_singleton c, fun a ha b hb hab => ?_⟩
    rw [List.mem_singleton] at hb
    exact hcd (hb ▸ hab ▸ ha)
  · by_cases hdc : d = c
    · subst hdc
      simpa [Role.pins] using hst
    · have hmem : d ∈ s₁.fifo := by simpa [hdc] using hdm
      simpa [set_state_of_ne s₁ hdc, set_role_of_ne s₁ hdc] using hd.retained d hmem
  · show (s₁.fifo ++ [c]).length ≤ cap
    rw [List.length_append, List.length_singleton]
    exact hroom
  · refine hd.resident.trans (total_congr fun d => ?_)
    by_cases hdc : d = c
    · subst hdc
      simp [Counted, hst]
    · simp [Counted, set_state_of_ne s₁ hdc, set_role_of_ne s₁ hdc]
  · refine hd.reserved.trans (total_congr fun d => ?_)
    by_cases hdc : d = c
    · subst hdc
      simp [hrole, Role.Reserves]
    · simp [set_role_of_ne s₁ hdc]

/-- A chunk whose state is not `RESIDENT` is not retained. -/
theorem Inv.notMem_fifo_of_state (h : Inv len budget cap s) (hst : s.state c ≠ .resident) :
    c ∉ s.fifo := fun hc => hst (h.retained c hc).1

theorem Inv.pins_le_pin (h : Inv len budget cap s) (c : Fin n) : (s.role c).pins ≤ s.pin c := by
  have := h.pin c
  omega

theorem Inv.pin_le (h : Inv len budget cap s) (c : Fin n) : s.pin c ≤ 3 := by
  have hcount := List.nodup_iff_count_le_one.1 h.nodup c
  have hpin := h.pin c
  have hle := h.pins_le c
  omega

/-- A chunk is counted as resident or as reserved, not both. -/
theorem Inv.not_reserves (h : Inv len budget cap s) {d : Fin n} (hd : s.Counted d) :
    ¬ (s.role d).Reserves := by
  intro hres
  have hfits := h.fits d
  rcases hd with hd | hd
  · rw [hd] at hfits
    cases hrole : s.role d <;> simp [hrole, Role.Reserves] at hres hfits
  · cases hrole : s.role d <;> simp [hrole, Role.Reserves, Role.Commits] at hres hd

/-- The counters never exceed the table's bytes. -/
theorem Inv.sum_le (h : Inv len budget cap s) : s.resident + s.reserved ≤ ∑ c, len c := by
  rw [h.resident, h.reserved, ← total_or fun d hd => h.not_reserves hd]
  exact total_le _

/-- The bytes of a chunk that is not counted yet fit on top of all others. -/
theorem Inv.sum_add_le (h : Inv len budget cap s) (hc : ¬ s.Counted c)
    (hr : ¬ (s.role c).Reserves) : s.resident + s.reserved + len c ≤ ∑ d, len d := by
  have hor := total_or (w := len) (p := s.Counted) (q := fun d => (s.role d).Reserves)
    fun d hd => h.not_reserves hd
  have hupd := total_update (w := len) (p := fun d => s.Counted d ∨ (s.role d).Reserves)
    (q := fun d => s.Counted d ∨ (s.role d).Reserves ∨ d = c) (c := c) fun d hd => by simp [hd]
  have hle := total_le (w := len) fun d => s.Counted d ∨ (s.role d).Reserves ∨ d = c
  simp only [hc, hr, or_false, if_false, if_true, or_true] at hupd
  have hres := h.resident
  have hrsv := h.reserved
  omega

theorem Inv.step {vic : Option (Fin n)} (h : Inv len budget cap s) (hcap : 1 ≤ cap)
    (hstep : Step len budget cap vic s s') : Inv len budget cap s' := by
  cases hstep with
  | stay => exact h
  | look _ c r hold hnew hfits =>
    refine h.set_keep hfits (by rw [hold.1, hnew.1]) (by rw [hnew.1]; exact Nat.zero_le _)
      (fun hc => ⟨(h.retained c hc).1, hnew.1⟩) ?_ ?_
    · simp [Counted, hold.2.2, hnew.2.2]
    · simp [hold.2.1, hnew.2.1]
  | begin _ c q hst hq =>
    have hnot : c ∉ s.fifo := h.notMem_fifo_of_state (by simp [hst])
    have hfits := h.fits c
    rw [hst] at hfits
    refine h.set_keep rfl ?_ hq (fun hc => absurd hc hnot) ?_ ?_
    · show s.pin c + q + _ = s.pin c + (_ + q)
      omega
    · cases hrole : s.role c <;> simp [Counted, hst, hrole, Role.Commits] at hfits ⊢
    · cases hrole : s.role c <;> simp [hrole, Role.Reserves] at hfits ⊢
  | pinUp _ c hrole hp hres =>
    -- a retained chunk is `RESIDENT` and has no part in a fetch
    have hnot : c ∉ s.fifo := by
      rcases hres with hst | hpos
      · exact h.notMem_fifo_of_state hst
      · exact h.notMem_fifo hpos
    have hfits := h.fits c
    have hpins : ((s.role c).withPins ((s.role c).pins + 1)).pins = (s.role c).pins + 1 := by
      cases hr : s.role c <;> simp [hr] at hrole ⊢
    refine h.set_keep ?_ (by rw [hpins]; omega) (by rw [hpins]; exact hp)
      (fun hc => absurd hc hnot) ?_ ?_
    · cases hr : s.role c <;> simp_all
    · cases hr : s.role c <;> simp [Counted, hr, Role.Commits]
    · cases hr : s.role c <;> simp [Role.Reserves]
  | pinDown _ c hp =>
    have hnot : c ∉ s.fifo := h.notMem_fifo hp
    have hpin := h.pins_le_pin c
    have hle := h.pins_le c
    have hfits := h.fits c
    have hpins : ((s.role c).withPins ((s.role c).pins - 1)).pins = (s.role c).pins - 1 := by
      cases hr : s.role c <;> simp
    refine h.set_keep ?_ (by rw [hpins]; omega) (by rw [hpins]; omega)
      (fun hc => absurd hc hnot) ?_ ?_
    · cases hr : s.role c <;> simp_all
    · cases hr : s.role c <;> simp [Counted, hr, Role.Commits]
    · cases hr : s.role c <;> simp [Role.Reserves]
  | reserve _ c p hrole hfit =>
    have hst : s.state c = .fetching := by simpa [hrole] using h.fits c
    have hle : p ≤ 2 := by simpa [hrole] using h.pins_le c
    refine h.set hst (by simp [hrole]) hle ?_ ?_ ?_ ?_
    · exact fun hc => absurd hc (h.notMem_fifo_of_state (by simp [hst]))
    · simp [Counted, hst, hrole, Role.Commits]
    · simp [hrole, Role.Reserves]
    · rw [set_resident]
      omega
  | map _ c p hrole =>
    have hst : s.state c = .fetching := by simpa [hrole] using h.fits c
    have hle : p ≤ 2 := by simpa [hrole] using h.pins_le c
    refine h.set_keep hst (by simp [hrole]) hle ?_ (by simp [Counted, hst, hrole, Role.Commits])
      (by simp [hrole, Role.Reserves])
    exact fun hc => absurd hc (h.notMem_fifo_of_state (by simp [hst]))
  | commit _ c p q hrole hq =>
    have hst : s.state c = .fetching := by simpa [hrole] using h.fits c
    -- the reserved bytes of the chunk become resident bytes
    have hlen : len c ≤ s.reserved := by
      rw [h.reserved]
      exact le_total (p := fun d => (s.role d).Reserves) (by simp [hrole, Role.Reserves])
    have hbud := h.budget
    refine h.set hst ?_ hq ?_ ?_ ?_ ?_
    · simp only [hrole, Role.pins]
      omega
    · exact fun hc => absurd hc (h.notMem_fifo_of_state (by simp [hst]))
    · simp [Counted, hst, hrole, Role.Commits]
    · simp only [hrole, Role.Reserves, if_true]
      show s.reserved - len c + len c = s.reserved + 0
      omega
    · omega
  | mark _ c p hrole =>
    have hst : s.state c = .fetching := by simpa [hrole] using h.fits c
    have hle : p ≤ 2 := by simpa [hrole] using h.pins_le c
    refine h.set_keep rfl (by simp [hrole]) hle ?_ (by simp [Counted, hrole, Role.Commits])
      (by simp [hrole, Role.Reserves])
    exact fun hc => absurd hc (h.notMem_fifo_of_state (by simp [hst]))
  | abandon _ c hst hrole =>
    refine h.set_keep trivial (by rw [hrole.1]; rfl) (Nat.zero_le 2) ?_ ?_ ?_
    · exact fun hc => absurd hc (h.notMem_fifo_of_state (by simp [hst]))
    · simp [Counted, hst, hrole.2.2]
    · simp [hrole.2.1]
  | evict _ v hst hpin hrole =>
    -- the victim is counted, so its bytes can be subtracted
    have hcounted : s.Counted v := Or.inl hst
    have hlen : len v ≤ s.resident := by
      rw [h.resident]
      exact le_total hcounted
    have hbud := h.budget
    refine h.set trivial (by simp [hrole]) (Nat.zero_le 2) ?_ ?_ (by simp [hrole]) ?_
    · intro hv
      have hcount := h.pin v
      have hpos := List.count_pos_iff.2 hv
      omega
    · simp only [hcounted, if_true, Role.Commits, reduceCtorEq, or_self, if_false]
      omega
    · rw [set_reserved]
      omega
  | release _ v hv => exact h.release hv
  | retain _ c hrole => exact h.retain hcap hrole

/-- Before anything is fetched. -/
theorem Inv.init (hstate : ∀ c, s.state c = .absent) (hpin : ∀ c, s.pin c = 0) (hfifo : s.fifo = [])
    (hres : s.resident = 0) (hrsv : s.reserved = 0) (hrole : ∀ c, s.role c = .none) :
    Inv len budget cap s := by
  refine ⟨fun c => ?_, fun c => ?_, fun c => ?_, ?_, ?_, ?_, ?_, ?_, ?_⟩
  · rw [hrole c]
    trivial
  · rw [hpin c, hfifo, hrole c]
    rfl
  · rw [hrole c]
    exact Nat.zero_le 2
  · rw [hfifo]
    exact List.nodup_nil
  · rw [hfifo]
    exact fun _ h => nomatch h
  · rw [hfifo]
    exact Nat.zero_le cap
  · rw [hres, total_eq_zero]
    intro c hc
    rw [Counted, hstate c, hrole c] at hc
    exact hc.elim nofun id
  · rw [hrsv, total_eq_zero]
    intro c hc
    rw [hrole c] at hc
    exact hc
  · rw [hres, hrsv]
    exact Nat.zero_le budget

/-- A step that evicts nothing leaves every evictable chunk evictable. -/
theorem Step.evictable (h : Inv len budget cap s) (hstep : Step len budget cap none s s')
    (hv : s.state v = .resident ∧ s.pin v = 0) : s'.state v = .resident ∧ s'.pin v = 0 := by
  have hpins : (s.role v).pins = 0 := Nat.le_zero.1 (hv.2 ▸ h.pins_le_pin v)
  have hnot : v ∉ s.fifo := by
    intro hm
    have hcount := h.pin v
    have hpos := List.count_pos_iff.2 hm
    omega
  -- a rule about another chunk changes nothing at `v`
  have hother : ∀ (c : Fin n) (st : ChunkState) (p : ℕ) (r : Role), v ≠ c →
      (s.set c st p r).state v = .resident ∧ (s.set c st p r).pin v = 0 := by
    intro c st p r hne
    rw [set_state_of_ne s hne, set_pin_of_ne s hne]
    exact hv
  have hfits := h.fits v
  rw [hv.1] at hfits
  cases hstep with
  | stay => exact hv
  | look _ c r hold hnew hfits' =>
    by_cases hne : v = c
    · subst hne
      simpa using hv
    · exact hother c _ _ _ hne
  | begin _ c q hst hq => exact hother c _ _ _ fun he => by simp [← he, hv.1] at hst
  | pinUp _ c hrole hp hres =>
    refine hother c _ _ _ fun he => ?_
    subst he
    rcases hres with hst | hpos
    · exact hst hv.1
    · omega
  | pinDown _ c hp => exact hother c _ _ _ fun he => by subst he; omega
  | reserve _ c p hrole hfit =>
    refine hother c (s.state c) (s.pin c) (.reserved p) fun he => ?_
    rw [he, hrole] at hfits
    cases hfits
  | map _ c p hrole =>
    refine hother c _ _ _ fun he => ?_
    rw [he, hrole] at hfits
    cases hfits
  | commit _ c p q hrole hq =>
    refine hother c (s.state c) (s.pin c + q) (.committed (p + q)) fun he => ?_
    rw [he, hrole] at hfits
    cases hfits
  | mark _ c p hrole =>
    refine hother c _ _ _ fun he => ?_
    rw [he, hrole] at hfits
    cases hfits
  | abandon _ c hst hrole => exact hother c _ _ _ fun he => by simp [← he, hv.1] at hst
  | release _ u hu =>
    exact hother u (s.state u) (s.pin u - 1) (s.role u) fun he => hnot (he ▸ hu)
  | retain _ c hrole =>
    have hne : v ≠ c := by
      intro he
      rw [he, hrole] at hpins
      cases hpins
    have hst := set_state_of_ne (s.dropOldest cap) hne (s.state c) (s.pin c) (.resident 0)
    have hpin := set_pin_of_ne (s.dropOldest cap) hne (s.state c) (s.pin c) (.resident 0)
    rw [dropOldest_state] at hst
    rw [dropOldest_pin s cap hnot] at hpin
    exact ⟨hst.trans hv.1, hpin.trans hv.2⟩

/-- The chunk's length is in one of the two counters. -/
def Occupied (s : Life n) (c : Fin n) : Prop := s.Counted c ∨ (s.role c).Reserves

instance (s : Life n) (c : Fin n) : Decidable (s.Occupied c) := inferInstanceAs (Decidable (_ ∨ _))

/-- Only an eviction frees a chunk. -/
theorem Step.occupied {vic : Option (Fin n)} (h : Inv len budget cap s)
    (hstep : Step len budget cap vic s s') (hvic : vic ≠ some v) (hv : s.Occupied v) :
    s'.Occupied v := by
  -- a rule about another chunk changes nothing at `v`
  have hset : ∀ (c : Fin n) (st : ChunkState) (p : ℕ) (r : Role),
      (v = c → st = .resident ∨ r.Commits ∨ r.Reserves) → (s.set c st p r).Occupied v := by
    intro c st p r hself
    by_cases hne : v = c
    · subst hne
      simpa [Occupied, Counted, or_assoc] using hself rfl
    · rwa [Occupied, Counted, set_state_of_ne s hne, set_role_of_ne s hne]
  have hfits := h.fits v
  cases hstep with
  | stay => exact hv
  | look _ c r hold hnew hfits' =>
    refine hset c _ _ r fun he => ?_
    subst he
    rcases hv with (hst | hcom) | hres
    · exact Or.inl hst
    · exact absurd hcom hold.2.2
    · exact absurd hres hold.2.1
  | begin _ c q hst hq =>
    refine hset c _ _ _ fun he => ?_
    subst he
    rw [hst] at hfits
    cases hrole : s.role v <;>
      simp [Occupied, Counted, hst, hrole, Role.Commits, Role.Reserves] at hv hfits
  | pinUp _ c hrole hp hres =>
    refine hset c _ _ _ fun he => ?_
    subst he
    rw [Role.commits_withPins, Role.reserves_withPins]
    exact or_assoc.1 hv
  | pinDown _ c hp =>
    refine hset c _ _ _ fun he => ?_
    subst he
    rw [Role.commits_withPins, Role.reserves_withPins]
    exact or_assoc.1 hv
  | reserve _ c p hrole hfit =>
    exact hset c (s.state c) (s.pin c) (.reserved p) fun _ => Or.inr (Or.inr trivial)
  | map _ c p hrole => exact hset c _ _ _ fun _ => Or.inr (Or.inr trivial)
  | commit _ c p q hrole hq =>
    exact hset c (s.state c) (s.pin c + q) (.committed (p + q)) fun _ => Or.inr (Or.inl trivial)
  | mark _ c p hrole => exact hset c _ _ _ fun _ => Or.inl rfl
  | abandon _ c hst hrole =>
    refine hset c _ _ _ fun he => ?_
    subst he
    rcases hv with (hres | hcom) | hres
    · rw [hst] at hres
      cases hres
    · exact absurd hcom hrole.2.2
    · exact absurd hres hrole.2.1
  | evict _ u hst hpin hrole =>
    exact hset u .absent (s.pin u) .none fun he => absurd (congrArg some he.symm) hvic
  | release _ u hu =>
    refine hset u (s.state u) (s.pin u - 1) (s.role u) fun he => ?_
    subst he
    exact or_assoc.1 hv
  | retain _ c hrole =>
    have hst : v = c → s.state v = .resident := by
      rintro rfl
      rwa [hrole] at hfits
    have hnew := hset c (s.state c) (s.pin c) (.resident 0) fun he => Or.inl (he ▸ hst he)
    have hdrop : ((s.dropOldest cap).set c (s.state c) (s.pin c) (.resident 0)).Occupied v ↔
        (s.set c (s.state c) (s.pin c) (.resident 0)).Occupied v := by
      simp only [Occupied, Counted, Life.set, dropOldest_state, dropOldest_role]
    exact hdrop.2 hnew

end Life

end Residctl
