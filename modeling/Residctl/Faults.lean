import Residctl.Content

/-!
# No fault is lost

A thread that is blocked on a chunk waits for the message it has queued, for the dispatcher
that has it in its hands, or for a fetch: a chunk that is `FETCHING` is in the demand queue
or in the charge of a thread (`Served.charged`), and whoever ends the fetch wakes the range.

The demand queue is a list here. The runs of the machine whose queues are in their rings are
such runs as long as no ring index wraps (`Reach.unringed`).
-/

namespace Residctl.Pager

open Mutex Function Runs

variable {n : ℕ} {σ : Type} {cfg : Config n σ} {s s' : State n σ} {a : Action n} {t : Tid}
  {io : Input n} {sh' : Shared n σ} {k k' : Point n} {c d : Fin n}

/-! ## Who is in charge of a chunk -/

/-- The chunk is queued for a worker or in the charge of a thread. -/
def State.Charged (s : State n σ) (c : Fin n) : Prop :=
  c ∈ s.sh.demandQueue ∨ ∃ t, (s.pc t).point.Owns c

/-- The dispatcher has made the chunk `FETCHING` and not queued it yet. -/
def Point.Begun : Point n → Fin n → Prop
  | .onFault _ c, d => d = c
  | .enqueue _ c, d => d = c
  | _, _ => False

theorem State.Charged.arrive (h : s.Charged c) (hpc : s.pc t = .go k)
    (hq : c ∈ s.sh.demandQueue → c ∈ sh'.demandQueue ∨ k'.Owns c)
    (hk : k.Owns c → c ∈ sh'.demandQueue ∨ k'.Owns c) : (s.arrive t sh' k').Charged c := by
  have hnew : c ∈ sh'.demandQueue ∨ k'.Owns c → (s.arrive t sh' k').Charged c := by
    rintro (hmem | howns)
    · exact Or.inl hmem
    · exact Or.inr ⟨t, by simpa [State.arrive] using howns⟩
  rcases h with hmem | ⟨t', howns⟩
  · exact hnew (hq hmem)
  · by_cases ht : t' = t
    · subst ht
      rw [hpc] at howns
      exact hnew (hk howns)
    · exact Or.inr ⟨t', by simpa [State.arrive, ht] using howns⟩

theorem setPhase_fetching {V : View n} {st : ChunkState} {since : ℕ} (hst : st ≠ .fetching)
    (h : ((V.setPhase c st since).phase d).1 = .fetching) : d ≠ c ∧ (V.phase d).1 = .fetching := by
  by_cases hd : d = c
  · subst hd
    simp [View.setPhase, hst] at h
  · exact ⟨hd, by simpa [View.setPhase, hd] using h⟩

/-- A fetch does not end while its chunk is `FETCHING`, except by an abandonment. -/
theorem Sound.not_leaves (hs : Sound cfg s) (hpc : s.pc t = .go k) (hk : k.quiet = true)
    (hst : (s.sh.region.chunks c).state = .fetching) : ¬ k.Leaves c := by
  intro hleave
  cases k with
  | job j i =>
    obtain ⟨hi, rfl⟩ := hleave
    have hfits := hs.fits j.target
    rw [hs.role_job hpc, hst] at hfits
    cases i with
    | abandon => cases hk
    | finish => cases hfits
    | finishPrefetch => cases hfits
    | _ => cases hi
  | enqueue m d => cases hk
  | _ => cases hleave

/-- Whoever is in charge of a `FETCHING` chunk hands it on. -/
theorem charged_exec (h : ∀ c, (s.sh.region.chunks c).state = .fetching → s.Charged c)
    (hs : Sound cfg s) (hpc : s.pc t = .go k) (hexec : exec cfg t io s.sh k = .next sh' k')
    (c : Fin n) (hc : (sh'.region.chunks c).state = .fetching) : (s.arrive t sh' k').Charged c := by
  have hkeep := (exec_flow hexec).keep c
  have hstay : ∀ {j : Job n} {i : Instr n}, i.leaves = false → k = .job j i → k.Owns c → k'.Owns c := by
    rintro j i hi rfl howns
    refine (hkeep howns).resolve_right fun hleave => ?_
    have hl := hleave.1
    rw [hi] at hl
    cases hl
  have hstate : (sh'.view.phase c).1 = .fetching := hc
  have hold : (s.sh.view.phase c).1 = .fetching → s.Charged c := h c
  have hfetch : (s.sh.view.phase c).1 = .fetching → (s.sh.region.chunks c).state = .fetching := id
  have hqueue : sh'.demandQueue = sh'.view.queue := rfl
  have hqueue₀ : s.sh.demandQueue = s.sh.view.queue := rfl
  have hdeed := hs.deed hpc hexec
  generalize s.sh.view = V at hdeed hold hfetch hqueue₀
  generalize sh'.view = V' at hdeed hstate hqueue
  have hsame : V'.queue = V.queue → (V.phase c).1 = .fetching → (k.Owns c → k'.Owns c) →
      (s.arrive t sh' k').Charged c := by
    intro hq hst howns
    refine (hold hst).arrive hpc (fun hm => Or.inl ?_) fun hk => Or.inr (howns hk)
    rwa [hqueue, hq, ← hqueue₀]
  cases hdeed with
  | quiet hk =>
    exact hsame rfl hstate fun howns =>
      (hkeep howns).resolve_right (hs.not_leaves hpc hk (hfetch hstate))
  | empty => exact hsame rfl hstate (by rintro ⟨⟩)
  | take huffd hm => exact hsame rfl hstate (by rintro ⟨⟩)
  | present hst => exact hsame rfl hstate (by rintro ⟨⟩)
  | coming hst => exact hsame rfl hstate (by rintro ⟨⟩)
  | @begin _ _ c₀ now _ hst hk hk' hload hleave =>
    -- the fetch that begins here is owned by the thread that begins it
    by_cases hcc : c = c₀
    · subst hcc
      exact Or.inr ⟨t, by simpa [State.arrive] using Point.owns_of_mem_base hk'⟩
    · exact hsame rfl (by simpa [View.setPhase, hcc] using hstate) fun howns =>
        (hkeep howns).resolve_right (hleave c)
  | @enqueue m c₀ _ hlen =>
    -- from the hands of the dispatcher into the queue
    refine (hold hstate).arrive hpc (fun hm => Or.inl ?_) fun howns => Or.inl ?_
    · rw [hqueue]
      exact List.mem_append_left _ (hqueue₀ ▸ hm)
    · have hcc : c = c₀ := by simpa [Point.Owns, Point.base] using howns
      rw [hqueue, hcc]
      exact List.mem_append_right _ List.mem_cons_self
  | @pick c₀ rest _ hpick =>
    refine (hold hstate).arrive hpc (fun hm => ?_) (by rintro ⟨⟩)
    -- the head of the queue goes to the worker that picks it
    rw [hqueue₀, hpick] at hm
    rcases List.mem_cons.1 hm with rfl | hrest
    · exact Or.inr rfl
    · exact Or.inl (by rw [hqueue]; exact hrest)
  | turn hk' hload => exact hsame rfl hstate (by rintro ⟨⟩)
  | reclaim hst hsince hage =>
    exact hsame rfl (setPhase_fetching (by simp) hstate).2 (by rintro ⟨⟩)
  | abandon =>
    obtain ⟨hne, hst⟩ := setPhase_fetching (by simp) hstate
    exact hsame rfl hst fun howns => (hkeep howns).resolve_right fun hleave => hne hleave.2
  | evict hst =>
    exact hsame rfl (setPhase_fetching (by simp) hstate).2 (hstay rfl rfl)
  | pad => exact hsame rfl hstate (hstay rfl rfl)
  | read hlo hfile => exact hsame rfl hstate (hstay rfl rfl)
  | direct hend => exact hsame rfl hstate (hstay rfl rfl)
  | tail hlo hfile => exact hsame rfl hstate (hstay rfl rfl)
  | loaded hend => exact hsame rfl hstate (hstay rfl rfl)
  | resolve hok => exact hsame rfl hstate (hstay rfl rfl)
  | commit => exact hsame rfl hstate (hstay rfl rfl)
  | mark => exact hsame rfl (setPhase_fetching (by simp) hstate).2 (hstay rfl rfl)
  | fault hidle hpage => exact hsame rfl hstate (by simp)

/-! ## Threads that wait for a page -/

/-- A thread waits only for a page that is not mapped. -/
theorem unmapped_exec (h : ∀ i a, s.sh.kernel.waiting i = some a →
      s.sh.kernel.mapped (pageOf a) = false) (hs : Sound cfg s) (hpc : s.pc t = .go k)
    (hexec : exec cfg t io s.sh k = .next sh' k') (i a : ℕ)
    (hwait : sh'.kernel.waiting i = some a) : sh'.kernel.mapped (pageOf a) = false := by
  have hdeed := hs.deed hpc hexec
  rw [show sh'.kernel = sh'.view.kernel from rfl] at hwait ⊢
  change ∀ i a, s.sh.view.kernel.waiting i = some a → s.sh.view.kernel.mapped (pageOf a) = false at h
  generalize s.sh.view = V at hdeed h
  generalize sh'.view = V' at hdeed hwait
  cases hdeed with
  | present hst => exact h i a (Kernel.wake_waiting hwait).1
  | reclaim hst hsince hage => exact h i a (Kernel.wake_waiting hwait).1
  | abandon => exact h i a (Kernel.wake_waiting hwait).1
  | @evict j b v _ hst =>
    show (if cfg.table.HasPage v (pageOf a) then false else V.kernel.mapped (pageOf a)) = false
    split
    · rfl
    · exact h i a hwait
  | @pad j _ =>
    have hsame : (padKernel cfg V.kernel j.target).waiting = V.kernel.waiting ∧
        (padKernel cfg V.kernel j.target).mapped = V.kernel.mapped := by
      unfold padKernel
      split <;> exact ⟨rfl, rfl⟩
    show (padKernel cfg V.kernel j.target).mapped (pageOf a) = false
    rw [hsame.2]
    apply h i a
    rw [← hsame.1]
    exact hwait
  | @resolve j _ hok =>
    obtain ⟨hold, hout⟩ := Kernel.wake_waiting hwait
    have hpage : ¬ cfg.table.HasPage j.target (pageOf a) := by
      rw [cfg.hasPage_iff]
      exact hout
    exact (if_neg hpage).trans (h i a hold)
  | @fault i' a' _ hidle hpage =>
    have hupd : update V.kernel.waiting i' (some a') i = some a := hwait
    by_cases hi : i = i'
    · subst hi
      rw [update_self] at hupd
      obtain rfl := Option.some.inj hupd
      exact hpage
    · rw [update_of_ne hi] at hupd
      exact h i a hupd
  | _ => exact h i a hwait

/-! ## Messages -/

theorem lookup_exec (h : ∀ t m c, (s.pc t).point.Dispatches m c → pagerLookup cfg.table m.addr = some c)
    (hs : Sound cfg s) (hpc : s.pc t = .go k) (hexec : exec cfg t io s.sh k = .next sh' k') :
    ∀ t' m c, ((s.arrive t sh' k').pc t').point.Dispatches m c →
      pagerLookup cfg.table m.addr = some c := by
  refine forall_arrive
    (P := fun _ k => ∀ m c, k.Dispatches m c → pagerLookup cfg.table m.addr = some c) h ?_
  intro m c hk'
  rcases (exec_flow hexec).dispatch m c hk' with hk | ⟨rfl, rfl⟩
  · have hold := h t m c
    rw [hpc] at hold
    exact hold hk
  · have hdeed := hs.deed hpc hexec
    generalize s.sh.view = V at hdeed
    generalize sh'.view = V' at hdeed
    cases hdeed with
    | quiet hk => cases hk
    | take huffd hm => exact hm
    | begin hst hk => cases hk

/-- The page of a byte is in the same chunk. -/
theorem covers_alignDown (cfg : Config n σ) {a : ℕ} (h : cfg.table.Covers c a) :
    cfg.table.Covers c (alignDown a) := by
  have hoff := cfg.table.aligned c
  unfold ChunkTable.Covers at *
  unfold alignDown RESIDCTL_ALIGN at *
  omega

/-- What thread `i`, blocked on address `a` of chunk `c`, waits for: its message, the
dispatcher, or the end of a fetch. -/
def State.Awaits (s : State n σ) (i a : ℕ) (c : Fin n) : Prop :=
  ⟨alignDown a, i⟩ ∈ s.sh.kernel.uffd ∨
    (∃ t d, (s.pc t).point.Dispatches ⟨alignDown a, i⟩ d) ∨
    (s.sh.region.chunks c).state = .fetching ∧ ∀ t, ¬ (s.pc t).point.Begun c

theorem Point.Begun.dispatches (h : k.Begun c) : ∃ m, k.Dispatches m c := by
  cases k with
  | onFault m d => exact ⟨m, rfl, h⟩
  | enqueue m d => exact ⟨m, rfl, h⟩
  | _ => cases h

theorem Point.Begun.mem_base (h : k.Begun c) : .chunk c ∈ k.base := by
  cases k with
  | onFault m d =>
    rw [show c = d from h]
    exact List.mem_cons_self
  | enqueue m d =>
    rw [show c = d from h]
    exact List.mem_cons_self
  | _ => cases h

theorem Point.Dispatches.unique_msg {m m' : Msg} (h : k.Dispatches m c) (h' : k.Dispatches m' d) :
    m' = m := by
  cases k with
  | switch x e => exact h'.1.trans h.1.symm
  | onFault x e => exact h'.1.trans h.1.symm
  | enqueue x e => exact h'.1.trans h.1.symm
  | _ => cases h

theorem Point.Dispatches.mem_holds {m : Msg} (h : k.Dispatches m c) : .chunk c ∈ k.holds := by
  cases k with
  | switch m' d =>
    rw [h.2]
    exact Point.needs_mem_holds rfl
  | onFault m' d =>
    rw [h.2]
    exact Point.base_subset_holds _ List.mem_cons_self
  | enqueue m' d =>
    rw [h.2]
    exact Point.base_subset_holds _ List.mem_cons_self
  | _ => cases h

/-- A chunk that the dispatcher has begun with is `FETCHING`. -/
theorem Sound.dispatching (hs : Sound cfg s) (hpc : s.pc t = .go k) {m : Msg}
    (hk : k.Dispatches m c) (hq : k.quiet = true ∨ ∃ m d, k = .enqueue m d) :
    (s.sh.region.chunks c).state = .fetching := by
  have hrole := hs.role_go hpc c hk.mem_holds
  have hfits := hs.fits c
  rw [hrole] at hfits
  cases k with
  | switch m' d =>
    rcases hq with hq | ⟨x, e, hq⟩
    · cases hq
    · cases hq
  | onFault m' d =>
    obtain rfl : c = d := hk.2
    simpa [Point.role] using hfits
  | enqueue m' d =>
    obtain rfl : c = d := hk.2
    simpa [Point.role] using hfits
  | _ => cases hk

/-- The dispatcher holds the mutex of the one chunk it deals with. -/
theorem Point.Dispatches.holds_or {m : Msg} (h : k.Dispatches m c) (hd : .chunk d ∈ k.holds) :
    c = d ∨ k.quiet = true ∨ ∃ m d, k = .enqueue m d := by
  cases k with
  | switch m' e =>
    obtain rfl : c = e := h.2
    left
    simpa [Point.holds, Point.needs, Point.base, eq_comm] using hd
  | onFault m' e => exact Or.inr (Or.inl rfl)
  | enqueue m' e => exact Or.inr (Or.inr ⟨m', e, rfl⟩)
  | _ => cases h

/-- The dispatcher starts on a chunk only by making it `FETCHING`. -/
theorem begun_of_begun (hpc : s.pc t = .go k)
    (hexec : exec cfg t io s.sh k = .next sh' k') (hst : (s.sh.region.chunks c).state = .fetching)
    (hk' : k'.Begun c) : k.Begun c := by
  obtain ⟨m, hm⟩ := hk'.dispatches
  rcases (exec_flow hexec).dispatch m c hm with hk | ⟨-, rfl⟩
  · cases k with
    | switch m' d =>
      obtain rfl : c = d := hk.2
      cases exec_branch hexec with
      | begin hst' _ | beginSilently hst' _ => cases hst.symm.trans hst'
      | _ => cases hk'
    | onFault m' d | enqueue m' d => exact hk.2
    | _ => cases hk
  · cases hk'

theorem awaits_exec (h : ∀ i a c, s.sh.kernel.waiting i = some a → cfg.table.Covers c a →
      s.Awaits i a c)
    (hlookup : ∀ t m c, (s.pc t).point.Dispatches m c → pagerLookup cfg.table m.addr = some c)
    (hunmapped : ∀ i a, s.sh.kernel.waiting i = some a → s.sh.kernel.mapped (pageOf a) = false)
    (hb : Backed cfg s) (hs : Sound cfg s) (hpc : s.pc t = .go k)
    (hexec : exec cfg t io s.sh k = .next sh' k') {i a : ℕ} {c : Fin n}
    (hwait : sh'.kernel.waiting i = some a) (hcov : cfg.table.Covers c a) :
    (s.arrive t sh' k').Awaits i a c := by
  have hold := h i a c
  -- the message leads the dispatcher to this chunk
  have hchunk : ∀ d, k.Dispatches ⟨alignDown a, i⟩ d → d = c := by
    intro d hd
    have hfound := hlookup t ⟨alignDown a, i⟩ d (by rw [hpc]; exact hd)
    exact (pagerLookup_covers _ hfound).unique (covers_alignDown cfg hcov)
  have hgo : k.Dispatches ⟨alignDown a, i⟩ c → (sh'.view.phase c).1 = .fetching →
      (s.arrive t sh' k').Awaits i a c := by
    intro hk hst
    by_cases hk' : k'.Dispatches ⟨alignDown a, i⟩ c
    · exact Or.inr (Or.inl ⟨t, c, by simpa [State.arrive] using hk'⟩)
    · refine Or.inr (Or.inr ⟨hst, fun t' hbegun => ?_⟩)
      by_cases ht : t' = t
      · subst ht
        have hbegun' : k'.Begun c := by simpa [State.arrive] using hbegun
        obtain ⟨m, hm⟩ := hbegun'.dispatches
        rcases (exec_flow hexec).dispatch m c hm with hkm | ⟨-, rfl⟩
        · have heq : m = ⟨alignDown a, i⟩ := hk.unique_msg hkm
          exact hk' (heq ▸ hm)
        · cases hbegun'
      · -- the chunk's mutex is held by the dispatcher
        have hbegun' : (s.pc t').point.Begun c := by simpa [State.arrive, ht] using hbegun
        exact ht (hs.owned.unique ((s.pc t').base_subset_holds hbegun'.mem_base)
          (by rw [hpc]; exact hk.mem_holds))
  have hmain : s.sh.view.kernel.waiting i = some a →
      (⟨alignDown a, i⟩ ∈ s.sh.view.kernel.uffd → ⟨alignDown a, i⟩ ∈ sh'.view.kernel.uffd ∨
        k'.Dispatches ⟨alignDown a, i⟩ c) →
      (k.Dispatches ⟨alignDown a, i⟩ c → (sh'.view.phase c).1 = .fetching) →
      ((s.sh.view.phase c).1 = .fetching → (sh'.view.phase c).1 = .fetching) →
      (s.arrive t sh' k').Awaits i a c := by
    intro hw huffd hB hC
    -- the message is queued, or dispatched, or its fetch will wake the thread
    rcases hold hw hcov with hA | ⟨t', d, hd⟩ | ⟨hst, hbegun⟩
    · rcases huffd hA with hA' | hk'
      · exact Or.inl hA'
      · exact Or.inr (Or.inl ⟨t, c, by simpa [State.arrive] using hk'⟩)
    · by_cases ht : t' = t
      · subst ht
        rw [hpc] at hd
        obtain rfl := hchunk d hd
        exact hgo hd (hB hd)
      · exact Or.inr (Or.inl ⟨t', d, by simpa [State.arrive, ht] using hd⟩)
    · refine Or.inr (Or.inr ⟨hC hst, forall_arrive (P := fun _ k => ¬ k.Begun c) hbegun fun hk' => ?_⟩)
      have hnot := hbegun t
      rw [hpc] at hnot
      exact hnot (begun_of_begun hpc hexec hst hk')
  -- a chunk whose pages are mapped has nobody waiting
  have hshown : s.sh.view.kernel.waiting i = some a → ¬ s.Shown c := by
    intro hw hshow
    have hmapped := (hb.mapped (pageOf a)).2 ⟨c, (cfg.hasPage_iff c a).2 hcov, hshow⟩
    rw [hunmapped i a hw] at hmapped
    cases hmapped
  have hbusy : k.Dispatches ⟨alignDown a, i⟩ c → k.quiet = true ∨ (∃ m d, k = .enqueue m d) →
      (s.sh.view.phase c).1 = .fetching := fun hk hq => hs.dispatching hpc hk hq
  have hdeed := hs.deed hpc hexec
  have hnew : ⟨alignDown a, i⟩ ∈ sh'.view.kernel.uffd → (s.arrive t sh' k').Awaits i a c := Or.inl
  change sh'.view.kernel.waiting i = some a at hwait
  generalize s.sh.view = V at hdeed hmain hshown hbusy
  generalize sh'.view = V' at hdeed hmain hgo hnew hwait
  cases hdeed with
  | quiet hk => exact hmain hwait Or.inl (fun hd => hbusy hd (Or.inl hk)) id
  | empty => exact hmain hwait Or.inl (by rintro ⟨⟩) id
  | @take m d rest _ huffd hm =>
    refine hmain hwait (fun hA => ?_) (by rintro ⟨⟩) id
    rw [huffd] at hA
    rcases List.mem_cons.1 hA with heq | hrest
    · subst heq
      have hd := (pagerLookup_covers _ hm).unique (covers_alignDown cfg hcov)
      exact Or.inr ⟨rfl, hd.symm⟩
    · exact Or.inl hrest
  | @present m d _ hst =>
    -- the wake covers the chunk, so the thread would not be waiting
    obtain ⟨hw, hout⟩ := Kernel.wake_waiting hwait
    refine hmain hw Or.inl (fun hk => ?_) id
    obtain rfl : c = d := hk.2
    exact absurd hcov hout
  | @coming m d _ hst =>
    refine hmain hwait Or.inl (fun hk => ?_) id
    obtain rfl : c = d := hk.2
    exact hst
  | @begin _ _ d now _ hst hk hk' hload hleave =>
    have hfetch : ((V.setPhase d .fetching now).phase d).1 = .fetching := by simp [View.setPhase]
    have hne : (V.phase c).1 = .fetching → ((V.setPhase d .fetching now).phase c).1 = .fetching := by
      intro hc
      by_cases hcd : c = d
      · rw [hcd]
        exact hfetch
      · simpa [View.setPhase, hcd] using hc
    refine hmain hwait Or.inl (fun hkc => ?_) hne
    rcases hkc.holds_or hk with rfl | hq
    · exact hfetch
    · exact hne (hbusy hkc hq)
  | @enqueue m d _ hlen => exact hmain hwait Or.inl (fun hk => hbusy hk (Or.inr ⟨m, d, rfl⟩)) id
  | pick hqueue => exact hmain hwait Or.inl (by rintro ⟨⟩) id
  | turn hk' hload => exact hmain hwait Or.inl (by rintro ⟨⟩) id
  | @reclaim now d _ hst hsince hage =>
    obtain ⟨hw, hout⟩ := Kernel.wake_waiting hwait
    refine hmain hw Or.inl (by rintro ⟨⟩) fun hc => ?_
    by_cases hcd : c = d
    · subst hcd
      exact absurd hcov hout
    · simpa [View.setPhase, View.wake, hcd] using hc
  | @abandon j _ =>
    obtain ⟨hw, hout⟩ := Kernel.wake_waiting hwait
    refine hmain hw Or.inl (by rintro ⟨⟩) fun hc => ?_
    by_cases hcd : c = j.target
    · subst hcd
      exact absurd hcov hout
    · simpa [View.setPhase, View.wake, hcd] using hc
  | @evict j b v _ hst =>
    refine hmain hwait Or.inl (by rintro ⟨⟩) fun hc => ?_
    by_cases hcd : c = v
    · subst hcd
      rw [hst] at hc
      cases hc
    · simpa [View.setPhase, hcd] using hc
  | @pad j _ =>
    have hsame : (padKernel cfg V.kernel j.target).waiting = V.kernel.waiting ∧
        (padKernel cfg V.kernel j.target).uffd = V.kernel.uffd := by
      unfold padKernel
      split <;> exact ⟨rfl, rfl⟩
    refine hmain (hsame.1 ▸ hwait) (fun hA => Or.inl ?_) (by rintro ⟨⟩) id
    show _ ∈ (padKernel cfg V.kernel j.target).uffd
    rw [hsame.2]
    exact hA
  | read hlo hfile => exact hmain hwait Or.inl (by rintro ⟨⟩) id
  | direct hend => exact hmain hwait Or.inl (by rintro ⟨⟩) id
  | tail hlo hfile => exact hmain hwait Or.inl (by rintro ⟨⟩) id
  | loaded hend => exact hmain hwait Or.inl (by rintro ⟨⟩) id
  | resolve hok => exact hmain (Kernel.wake_waiting hwait).1 Or.inl (by rintro ⟨⟩) id
  | commit => exact hmain hwait Or.inl (by rintro ⟨⟩) id
  | @mark j _ =>
    refine hmain hwait Or.inl (by rintro ⟨⟩) fun hc => ?_
    by_cases hcd : c = j.target
    · -- its pages are mapped since `resolve`
      refine absurd (Or.inr ⟨t, ?_⟩) (hshown hwait)
      rw [hpc]
      exact hcd.symm
    · simpa [View.setPhase, hcd] using hc
  | @fault i' a' _ hidle hpage =>
    -- the new fault is queued
    have hupd : update V.kernel.waiting i' (some a') i = some a := hwait
    by_cases hi : i = i'
    · subst hi
      rw [update_self] at hupd
      obtain rfl := Option.some.inj hupd
      exact hnew (List.mem_append_right _ List.mem_cons_self)
    · rw [update_of_ne hi] at hupd
      exact hmain hupd (fun hA => Or.inl (List.mem_append_left _ hA)) (by rintro ⟨⟩) id

/-! ## Every run -/

structure Served (cfg : Config n σ) (s : State n σ) : Prop where
  charged : ∀ c, (s.sh.region.chunks c).state = .fetching → s.Charged c
  unmapped : ∀ i a, s.sh.kernel.waiting i = some a → s.sh.kernel.mapped (pageOf a) = false
  lookup : ∀ t m c, (s.pc t).point.Dispatches m c → pagerLookup cfg.table m.addr = some c
  awaits : ∀ i a c, s.sh.kernel.waiting i = some a → cfg.table.Covers c a → s.Awaits i a c

/-- The point has no part in the handling of faults. -/
def Point.Aside (k : Point n) : Prop := (∀ c, ¬ k.Owns c) ∧ ∀ m c, ¬ k.Dispatches m c

/-- A step without effect on chunks, waiting threads and demand queue. -/
theorem Served.congr (h : Served cfg s)
    (hstate : ∀ d, (s'.sh.region.chunks d).state = (s.sh.region.chunks d).state)
    (hqueue : s'.sh.demandQueue = s.sh.demandQueue)
    (hwaiting : s'.sh.kernel.waiting = s.sh.kernel.waiting)
    (hmapped : s'.sh.kernel.mapped = s.sh.kernel.mapped)
    (huffd : ∀ m, s.sh.kernel.waiting m.thread ≠ none → m ∈ s.sh.kernel.uffd →
      m ∈ s'.sh.kernel.uffd)
    (hpoint : ∀ t, (s'.pc t).point = (s.pc t).point ∨
      (s'.pc t).point.Aside ∧ (s.pc t).point.Aside) : Served cfg s' := by
  have howns : ∀ t c, (s'.pc t).point.Owns c ↔ (s.pc t).point.Owns c := by
    intro t c
    rcases hpoint t with heq | haside
    · rw [heq]
    · exact iff_of_false (haside.1.1 c) (haside.2.1 c)
  have hdisp : ∀ t m c, (s'.pc t).point.Dispatches m c ↔ (s.pc t).point.Dispatches m c := by
    intro t m c
    rcases hpoint t with heq | haside
    · rw [heq]
    · exact iff_of_false (haside.1.2 m c) (haside.2.2 m c)
  refine ⟨fun c hc => ?_, fun i a hw => ?_, fun t m c hd => ?_, fun i a c hw hcov => ?_⟩
  · rw [hstate] at hc
    have hold := h.charged c hc
    unfold State.Charged at hold ⊢
    simpa only [hqueue, howns] using hold
  · rw [hwaiting] at hw
    rw [hmapped]
    exact h.unmapped i a hw
  · exact h.lookup t m c ((hdisp t m c).1 hd)
  · rw [hwaiting] at hw
    rcases h.awaits i a c hw hcov with hA | ⟨t, d, hd⟩ | ⟨hst, hbegun⟩
    · exact Or.inl (huffd _ (by rw [hw]; simp) hA)
    · exact Or.inr (Or.inl ⟨t, d, (hdisp _ _ _).2 hd⟩)
    · refine Or.inr (Or.inr ⟨(hstate c).trans hst, fun t hb => hbegun t ?_⟩)
      rcases hpoint t with heq | haside
      · rwa [heq] at hb
      · obtain ⟨m, hm⟩ := hb.dispatches
        exact absurd hm (haside.1.2 m c)

theorem Served.step (h : Served cfg s) (hb : Backed cfg s) (hs : Sound cfg s)
    (hstep : step cfg a s = some s') : Served cfg s' := by
  cases moves_of_step hstep with
  | acquire hpc hneeds hfree =>
    exact h.congr (fun _ => rfl) rfl rfl rfl (fun _ _ hm => hm) fun t' => Or.inl (acquire_point hpc t')
  | @giveUp _ now c hpc =>
    refine h.congr (fun _ => rfl) rfl rfl rfl (fun _ _ hm => hm) fun t' => ?_
    by_cases ht : t' = .handler
    · subst ht
      refine Or.inr ⟨?_, by rw [hpc]; exact ⟨by rintro _ ⟨⟩, by rintro _ _ ⟨⟩⟩⟩
      simp only [State.arrive, update_self, enter_point]
      exact ⟨by rintro _ ⟨⟩, by rintro _ _ ⟨⟩⟩
    · exact Or.inl (by simp [State.arrive, ht])
  | exec hpc hexec =>
    exact ⟨charged_exec h.charged hs hpc hexec, unmapped_exec h.unmapped hs hpc hexec,
      lookup_exec h.lookup hs hpc hexec,
      fun _ _ _ hw hcov => awaits_exec h.awaits h.lookup h.unmapped hb hs hpc hexec hw hcov⟩
  | tick _ =>
    exact h.congr (fun _ => rfl) rfl rfl rfl (fun _ _ hm => hm) fun _ => Or.inl rfl
  | @drop _ m hidle =>
    refine h.congr (fun _ => rfl) rfl rfl rfl (fun m' hw hm => ?_) fun _ => Or.inl rfl
    exact (List.mem_erase_of_ne fun heq => hw (by rw [heq]; exact hidle)).2 hm
  | requestStop =>
    exact h.congr (fun _ => rfl) rfl rfl rfl (fun _ _ hm => hm) fun _ => Or.inl rfl

theorem init_aside (cfg : Config n σ) (p : σ) (t : Tid) :
    ((pager cfg p).init.pc t).point.Aside := by
  apply init_point (P := Point.Aside) <;> exact ⟨by rintro _ ⟨⟩, by rintro _ _ ⟨⟩⟩

theorem Served.init (cfg : Config n σ) (p : σ) : Served cfg (pager cfg p).init := by
  refine ⟨by rintro _ ⟨⟩, by rintro _ _ ⟨⟩, fun t m c hd => ?_, nofun⟩
  exact absurd hd ((init_aside cfg p t).2 m c)

theorem Reach.served {ok : Action n → State n σ → Prop} {p : σ} (h : Reach (pager cfg p) ok s) :
    Served cfg s :=
  h.invariant (Served.init cfg p) fun _ _ _ hr _ hserved hstep =>
    hserved.step (Reach.backed hr) (Reach.sound hr) hstep

/-! ## The law -/

end Residctl.Pager
