import Residctl.Belady
import Residctl.Content
import Residctl.Counters
import Residctl.Lib.Prefetching

/-!
# No run beats the offline optimum

`belady_main` reports the fewest fetches that a reference string needs on a given budget, and
the arms of an experiment are compared with that number. Here the reference string of a run of
the pager is what its workload threads read, in the order of their reads. Whatever the policy,
the prefetching, the workers and the interleaving, the chunks that hold reserved or resident
bytes are a cache within the budget that loads ahead of use, and only an eviction takes
a chunk out of it. So a run punches and holds at least the bytes that some schedule loads on
demand, and with chunks of one length it fetches at least as often as the solver says.
-/

namespace Residctl.Pager

open Function Runs Ledger Paging

variable {n : ℕ} {σ : Type} {cfg : Config n σ} {s s' : State n σ} {a : Action n} {t : Tid}
  {io : Input n} {sh' : Shared n σ} {k k' : Point n} {c v : Fin n} {refs : List (Fin n)}

/-! ## The reference string -/

/-- The chunk of the byte that a step reads. A workload thread that touches a page of mapping A
goes on when the page is mapped. -/
def readNote (cfg : Config n σ) (a : Action n) (s _s' : State n σ) : List (Fin n) :=
  match a with
  | .exec t _ =>
    match s.pc t with
    | .go (.touch b) =>
      if s.sh.kernel.mapped (pageOf b) = true then (pagerLookup cfg.table b).toList else []
    | _ => []
  | _ => []

/-- The chunks whose lengths are in `resident_bytes` or `reserved_bytes`. -/
def State.held (s : State n σ) : Finset (Fin n) :=
  Finset.univ.filter fun c => (s.sh.life s.role).Occupied c

theorem mem_held : c ∈ s.held ↔ (s.sh.life s.role).Occupied c := by simp [State.held]

/-- They fit into the budget. -/
theorem Sound.held_weight (h : Sound cfg s) :
    weight cfg.table.len s.held = s.sh.region.residentBytes + s.sh.region.reservedBytes := by
  have hres : s.sh.region.residentBytes = total cfg.table.len (s.sh.life s.role).Counted :=
    h.life.resident
  have hrsv : s.sh.region.reservedBytes = total cfg.table.len fun c => (s.role c).Reserves :=
    h.life.reserved
  have hsum := total_or (w := cfg.table.len) (p := (s.sh.life s.role).Counted)
    (q := fun c => (s.role c).Reserves) fun c hc => h.life.not_reserves hc
  rw [hres, hrsv, ← hsum, total, ← Finset.sum_filter]
  rfl

theorem Sound.held_fits (h : Sound cfg s) : weight cfg.table.len s.held ≤ cfg.budgetBytes :=
  h.held_weight.trans_le h.life.budget

/-- A chunk that can be read holds its bytes. -/
theorem Sound.shown_held (h : Sound cfg s) (hc : s.Shown c) : c ∈ s.held := by
  rw [mem_held]
  rcases hc with hres | ⟨t, hcont⟩
  · exact Or.inl (Or.inl hres)
  · cases hpt : (s.pc t).point with
    | job j i =>
      rw [hpt] at hcont
      cases i with
      | commit =>
        obtain rfl : j.target = c := hcont
        exact Or.inr ((h.promised_iff _).2 ⟨t, j, .commit, hpt, rfl, rfl⟩)
      | mark =>
        obtain rfl : j.target = c := hcont
        exact Or.inl (Or.inr ((h.committed_iff _).2 ⟨t, j, hpt, rfl⟩))
      | _ => cases hcont
    | _ =>
      rw [hpt] at hcont
      cases hcont

/-- What is read is held. -/
theorem readNote_held (hs : Sound cfg s) (hb : Backed cfg s) (hc : c ∈ readNote cfg a s s') :
    c ∈ s.held := by
  unfold readNote at hc
  split at hc
  · rename_i t io
    split at hc
    · rename_i b hpc
      split at hc
      · rename_i hmapped
        have hcov : cfg.table.Covers c b := pagerLookup_covers cfg.table (Option.mem_toList.1 hc)
        obtain ⟨d, hpage, hshown⟩ := (hb.mapped _).1 hmapped
        obtain rfl : c = d := hcov.unique ((cfg.hasPage_iff d b).1 hpage)
        exact hs.shown_held hshown
      · cases hc
    · cases hc
  · cases hc

/-! ## The invariant -/

/-- What the run has punched and holds pays for its references on demand. -/
def Paid (cfg : Config n σ) (s : State n σ) (refs : List (Fin n)) : Prop :=
  Shadowed cfg.table.len cfg.budgetBytes refs s.held s.sh.region.stats.bytesPunched

theorem Paid.congr (h : Paid cfg s refs) (hregion : s'.sh.region = s.sh.region)
    (hrole : s'.role = s.role) : Paid cfg s' refs := by
  have hheld : s'.held = s.held := by
    ext c
    rw [mem_held, mem_held, hrole, Shared.life, hregion, Shared.life]
  rw [Paid, hheld, hregion]
  exact h

/-- Only an eviction takes a chunk out, and it punches the chunk's bytes. -/
theorem Paid.exec (h : Paid cfg s refs) (hs : Sound cfg s) (hpc : s.pc t = .go k)
    (hexec : exec cfg t io s.sh k = .next sh' k') : Paid cfg (s.arrive t sh' k') refs := by
  have hlife := exec_life hs.life (hs.role_go hpc) hexec
  have hrole : (s.arrive t sh' k').role = _ := role_arrive hs.owned hpc (exec_flow hexec).base
  have hkeep : ∀ c, k.victim ≠ some c → c ∈ s.held → c ∈ (s.arrive t sh' k').held := by
    intro c hvic hc
    rw [mem_held, hrole]
    exact hlife.occupied hs.life hvic (mem_held.1 hc)
  have htally : sh'.tally = k.count cfg s.sh.tally := (exec_counts hexec).tally
  have hpunched : sh'.region.stats.bytesPunched = (k.count cfg s.sh.tally).punched :=
    congrArg Tally.punched htally
  cases hv : k.victim with
  | none =>
    -- nothing is punched: what is held only grows
    have hsame : (k.count cfg s.sh.tally).punched = s.sh.region.stats.bytesPunched := by
      cases k with
      | job j i =>
        cases i with
        | evict a v => cases hv
        | _ => rfl
      | _ => rfl
    refine h.mono (fun c hc => hkeep c (by simp [hv]) hc) ?_
    show _ ≤ sh'.region.stats.bytesPunched
    rw [hpunched, hsame]
  | some v =>
    obtain ⟨j, a, rfl⟩ := Point.victim_eq_some hv
    refine (h.drop v).mono (fun c hc => ?_) ?_
    · rw [Finset.mem_erase] at hc
      refine hkeep c ?_ hc.2
      rw [hv]
      exact fun he => hc.1 (Option.some.inj he).symm
    · show _ ≤ sh'.region.stats.bytesPunched
      rw [hpunched]
      rfl

theorem Paid.step (h : Paid cfg s refs) (hs : Sound cfg s) (hstep : step cfg a s = some s') :
    Paid cfg s' refs := by
  cases moves_of_step hstep with
  | acquire hpc hneeds hfree => exact h.congr rfl (role_acquire hs.owned hpc hneeds hfree)
  | giveUp hpc =>
    refine h.congr rfl (role_arrive_free hs.owned ?_ rfl)
    rw [hpc]
    rfl
  | exec hpc hexec => exact h.exec hs hpc hexec
  | tick _ => exact h.congr rfl rfl
  | drop _ => exact h.congr rfl rfl
  | requestStop => exact h.congr rfl rfl

/-- A read goes to a chunk that is held. -/
theorem Paid.note (h : Paid cfg s refs) (hs : Sound cfg s) (hb : Backed cfg s) :
    Paid cfg s (refs ++ readNote cfg a s s') := by
  have hshort : readNote cfg a s s' = [] ∨ ∃ c, readNote cfg a s s' = [c] := by
    unfold readNote
    split
    · split
      · rename_i b _
        split
        · cases pagerLookup cfg.table b with
          | none => exact Or.inl rfl
          | some c => exact Or.inr ⟨c, rfl⟩
        · exact Or.inl rfl
      · exact Or.inl rfl
    · exact Or.inl rfl
  rcases hshort with hnone | ⟨c, hone⟩
  · rw [hnone, List.append_nil]
    exact h
  · have hmem : c ∈ readNote cfg a s s' := by simp [hone]
    have hc : c ∈ s.held := readNote_held hs hb hmem
    rw [hone]
    exact Shadowed.read h hc hs.held_fits

theorem Paid.init (cfg : Config n σ) (p : σ) : Paid cfg (pager cfg p).init [] :=
  Shadowed.nil.mono (Finset.empty_subset _) (Nat.zero_le _)

theorem Reachable.paid {p : σ} (h : Reachable ((pager cfg p).recorded (readNote cfg)) (s, refs)) :
    Paid cfg s refs := by
  refine Reachable.recorded_invariant (I := Paid cfg) (Paid.init cfg p) ?_ h
  intro a s s' refs hr hpaid hstep
  have hsound := Reach.sound hr
  exact (hpaid.note hsound (Reach.backed hr)).step hsound hstep

/-! ## The bound -/

/-- When no fetch is in progress the chunks that hold bytes are the `RESIDENT` ones. -/
theorem Sound.reserved_calm (h : Sound cfg s) (hcalm : s.Calm) : s.sh.region.reservedBytes = 0 := by
  have hrsv : s.sh.region.reservedBytes = total cfg.table.len fun c => (s.role c).Reserves :=
    h.life.reserved
  rw [hrsv, total_eq_zero]
  intro c hc
  obtain ⟨t, j, i, hpt, -⟩ := (h.promised_iff c).1 hc
  have hno := hcalm t
  rw [hpt] at hno
  cases hno

theorem Sound.resident_calm (h : Sound cfg s) (hcalm : s.Calm) : s.sh.region.residentBytes =
    ∑ c with (s.sh.region.chunks c).state = .resident, cfg.table.len c := by
  have hres : s.sh.region.residentBytes = total cfg.table.len (s.sh.life s.role).Counted :=
    h.life.resident
  rw [hres, Finset.sum_filter]
  refine total_congr fun c => or_iff_left ?_
  intro hc
  obtain ⟨t, j, hpt, -⟩ := (h.committed_iff c).1 hc
  have hno := hcalm t
  rw [hpt] at hno
  cases hno

/-- With chunks of one length every eviction punches that length. -/
theorem Reachable.punched_eq {p : σ} {L : ℕ} (hlen : ∀ c, cfg.table.len c = L)
    (h : Reachable (pager cfg p) s) :
    s.sh.tally.punched = s.sh.tally.evictions * L := by
  have hinit : (pager cfg p).init.sh.tally.punched = (pager cfg p).init.sh.tally.evictions * L :=
    (Nat.zero_mul L).symm
  refine Reach.invariant (I := fun s : State n σ => s.sh.tally.punched = s.sh.tally.evictions * L)
    hinit ?_ h
  intro a s s' _ _ hI hstep
  cases moves_of_step hstep with
  | @exec s t io k sh' k' _ hexec =>
    show sh'.tally.punched = sh'.tally.evictions * L
    rw [(exec_counts hexec).tally]
    cases k with
    | job j i =>
      cases i with
      | evict a v =>
        show s.sh.tally.punched + cfg.table.len v = (s.sh.tally.evictions + 1) * L
        rw [hI, hlen, Nat.succ_mul]
      | _ => exact hI
    | _ => exact hI
  | _ => exact hI

/-- Client 0 reads chunk 0, then chunk 1, which takes the room of chunk 0. -/
def readBoth : List (Action 2) :=
  residentZero ++ [.exec (.client 0) {}, .acquire (.worker 0), .exec (.worker 0) {},
    .exec (.worker 0) {}, .exec (.client 0) { op := .touch 4096 }, .exec (.client 0) {},
    .exec .handler {}, .acquire .handler, .exec .handler {}, .acquire .handler, .exec .handler {},
    .acquire (.worker 0), .exec (.worker 0) {}, .acquire (.worker 0), .exec (.worker 0) {},
    .acquire (.worker 0), .exec (.worker 0) {}, .exec (.worker 0) { shmem := 4096 },
    .exec (.worker 0) {}, .acquire (.worker 0)] ++
    List.replicate 8 (.exec (.worker 0) { count := 4096 }) ++ [.acquire (.worker 0)] ++
    List.replicate 2 (.exec (.worker 0) {}) ++ [.acquire (.worker 0), .exec (.worker 0) {},
    .exec (.worker 0) {}, .exec (.client 0) {}]

theorem readBoth_runs : (run ((pager twoPages ()).recorded (readNote twoPages)) readBoth
    ((pager twoPages ()).recorded (readNote twoPages)).init).isSome = true := by
  decide +kernel

/-- Some schedule that loads on demand serves the reads of a run for no more than what the run
has punched and holds. When no fetch is in progress that is what the run has fetched, as
`stat_bytes_fetched` counts it unless a pool runs beside the synchronous handler, whose plain
additions to the counter can be lost. -/
theorem reads_paid (cfg : Config n σ) (p : σ)
    (h : Reachable ((pager cfg p).recorded (readNote cfg)) (s, refs)) :
    ∃ m, Serves cfg.table.len cfg.budgetBytes ∅ refs m ∧
      m ≤ s.sh.region.stats.bytesPunched + s.sh.region.residentBytes + s.sh.region.reservedBytes ∧
      (cfg.asyncHandler = true ∨ cfg.pool = false → s.Calm →
        m ≤ s.sh.region.stats.bytesFetched) := by
  have hr : Reachable (pager cfg p) s := h.of_recorded
  have hs : Sound cfg s := Reach.sound hr
  rcases (Reachable.paid h).serves with ⟨m, hm, hserves⟩
  rw [hs.held_weight, ← Nat.add_assoc] at hm
  refine ⟨m, hserves, hm, ?_⟩
  intro _ hcalm
  have hconserved := ((Reach.balanced hr).conserved hs hcalm).2
  rw [hs.reserved_calm hcalm] at hm
  omega

theorem reads_paid_twoPages : ∃ (s : State 2 Unit) (refs : List (Fin 2)), refs = [0, 1] ∧
    ∃ m, Serves twoPages.table.len 4096 ∅ refs m ∧
      m ≤ s.sh.region.stats.bytesPunched + s.sh.region.residentBytes + s.sh.region.reservedBytes ∧
      (twoPages.asyncHandler = true ∨ twoPages.pool = false → s.Calm →
        m ≤ s.sh.region.stats.bytesFetched) :=
  ⟨_, _, by decide +kernel, reads_paid twoPages () (reachable_get readBoth readBoth_runs)⟩

/-- With chunks of one length no run fetches less often than the solver says, whatever it has
prefetched. -/
theorem offline_le_fetched (cfg : Config n σ) (p : σ) {L : ℕ} (hL : 0 < L)
    (hlen : ∀ c, cfg.table.len c = L) (hn : n < 2 ^ 32) (hcap : cfg.budgetBytes / L < 2 ^ 32)
    (h : Reachable ((pager cfg p).recorded (readNote cfg)) (s, refs)) (hrefs : refs.length < 2 ^ 64) :
    ∃ r, Belady.beladySimulate (refs.map Fin.val) (Belady.slots cfg.budgetBytes L) = some r ∧
      r.misses * L ≤
        s.sh.region.stats.bytesPunched + s.sh.region.residentBytes + s.sh.region.reservedBytes ∧
      (s.Calm → r.misses ≤ s.sh.region.stats.absentHandled + s.sh.region.stats.prefetches) := by
  have hr : Reachable (pager cfg p) s := h.of_recorded
  have hs : Sound cfg s := Reach.sound hr
  rcases (Reachable.paid h).serves with ⟨m, hm, hserves⟩
  rw [hs.held_weight, ← Nat.add_assoc] at hm
  obtain ⟨k, rfl, hslots⟩ := hserves.to_slots hL (by simp) fun c _ => hlen c
  have hids : ∀ c ∈ refs.map Fin.val, c < 2 ^ 32 - 1 := by
    intro c hc
    obtain ⟨d, -, rfl⟩ := List.mem_map.1 hc
    have hd := d.2
    omega
  obtain ⟨r, hsolved, hfurthest⟩ := Belady.beladySimulate_furthest (cfg.budgetBytes / L) hids
    (by rwa [List.length_map])
  -- the schedule is one of those that the solver is no worse than
  have hmap := Serves.map (w := fun _ => 1) (Fin.valEmbedding (n := n)) hslots
  rw [Finset.map_empty] at hmap
  have hleast : r.misses ≤ k := greedy_le (hfurthest.greedy (by simp)) hmap
  have hbytes : r.misses * L ≤ k * L := Nat.mul_le_mul_right L hleast
  refine ⟨r, (Belady.slots_of_lt hcap).symm ▸ hsolved, hbytes.trans hm, ?_⟩
  intro hcalm
  have hpunched : s.sh.region.stats.bytesPunched = s.sh.region.stats.evictions * L :=
    Reachable.punched_eq hlen hr
  have hconserved := ((Reach.balanced hr).conserved hs hcalm).1
  have hresident : s.sh.region.residentBytes =
      (Finset.univ.filter fun c => (s.sh.region.chunks c).state = .resident).card * L := by
    rw [hs.resident_calm hcalm, Finset.sum_congr rfl fun c _ => hlen c, Finset.sum_const, smul_eq_mul]
  rw [hs.reserved_calm hcalm, Nat.add_zero, hpunched, hresident, ← Nat.add_mul] at hm
  have hcount := Nat.le_of_mul_le_mul_right (hbytes.trans hm) hL
  omega

theorem offline_le_fetched_twoPages : ∃ (s : State 2 Unit) (refs : List (Fin 2)), refs = [0, 1] ∧
    ∃ r, Belady.beladySimulate (refs.map Fin.val) (Belady.slots 4096 4096) = some r ∧
      r.misses * 4096 ≤
        s.sh.region.stats.bytesPunched + s.sh.region.residentBytes + s.sh.region.reservedBytes ∧
      (s.Calm → r.misses ≤ s.sh.region.stats.absentHandled + s.sh.region.stats.prefetches) :=
  ⟨_, _, by decide +kernel, offline_le_fetched twoPages () (by decide) (fun _ => rfl) (by decide)
    (by decide) (reachable_get readBoth readBoth_runs) (by decide +kernel)⟩

end Residctl.Pager
