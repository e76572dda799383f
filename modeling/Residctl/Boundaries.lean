import Residctl.Gguf

/-!
# The boundaries of a file

The code cuts the file where a run of same-group tensors begins in a page that has no boundary
yet. Over lists these boundaries are `bounds`: one for every page in which a run begins, and
page 0 (`length_bounds`). The arrays of `build_inventory_and_table` hold the last `2 ^ 32` of them,
and their writes stay inside (`exists_cut`).
-/

namespace Residctl

open Function

/-! ## Runs of same-group tensors -/

/-- A maximal run of tensors of one group, in file order. -/
structure Segment where
  start : ℕ
  stop : ℕ
  group : ℤ
deriving DecidableEq, Repr

/-- The page in which the run begins. -/
def Segment.page (r : Segment) : ℕ := alignDown r.start

/-- Drop the first run if it continues group `g`. -/
def dropSame (g : ℤ) : List Segment → List Segment
  | [] => []
  | r :: rs => if r.group = g then rs else r :: rs

/-- The end of the first run if it continues group `g`. -/
def stopSame (g : ℤ) (stop : ℕ) : List Segment → ℕ
  | [] => stop
  | r :: _ => if r.group = g then r.stop else stop

/-- The runs of a list of tensors in file order. -/
def segments : List TensorEnt → List Segment
  | [] => []
  | t :: ts =>
    ⟨t.fileOff, stopSame t.group (t.fileOff + t.size) (segments ts), t.group⟩ ::
      dropSame t.group (segments ts)

/-- Tensors in file order: of positive size, disjoint, inside the file. -/
structure FileOrder (fileSize : ℕ) (srt : List TensorEnt) : Prop where
  size_pos : ∀ t ∈ srt, 0 < t.size
  inside : ∀ t ∈ srt, t.fileOff + t.size ≤ fileSize
  disjoint : srt.Pairwise fun t u => t.fileOff + t.size ≤ u.fileOff

section

variable {fileSize : ℕ} {srt ts : List TensorEnt} {t u : TensorEnt} {r : Segment} {rs : List Segment}
  {g : ℤ} {b c last : ℕ}

theorem FileOrder.tail (h : FileOrder fileSize (t :: ts)) : FileOrder fileSize ts where
  size_pos u hu := h.size_pos u (List.mem_cons_of_mem _ hu)
  inside u hu := h.inside u (List.mem_cons_of_mem _ hu)
  disjoint := (List.pairwise_cons.1 h.disjoint).2

theorem mem_of_mem_dropSame (h : r ∈ dropSame g rs) : r ∈ rs := by
  cases rs with
  | nil => cases h
  | cons u rs =>
    simp only [dropSame] at h
    split at h
    · exact List.mem_cons_of_mem _ h
    · exact h

theorem stopSame_cases (g : ℤ) (stop : ℕ) (rs : List Segment) :
    stopSame g stop rs = stop ∧ dropSame g rs = rs ∧ (∀ r ∈ rs.head?, r.group ≠ g) ∨
      ∃ r rs', rs = r :: rs' ∧ r.group = g ∧ stopSame g stop rs = r.stop ∧ dropSame g rs = rs' := by
  cases rs with
  | nil => exact Or.inl ⟨rfl, rfl, nofun⟩
  | cons r rs' =>
    by_cases hg : r.group = g
    · exact Or.inr ⟨r, rs', rfl, hg, by simp [stopSame, hg], by simp [dropSame, hg]⟩
    · exact Or.inl ⟨by simp [stopSame, hg], by simp [dropSame, hg], by simpa using hg⟩

/-- A run begins with a tensor of its group and ends with one. -/
theorem segments_ends (h : r ∈ segments srt) :
    (∃ t ∈ srt, t.fileOff = r.start ∧ t.group = r.group) ∧
      ∃ t ∈ srt, t.fileOff + t.size = r.stop ∧ t.group = r.group := by
  induction srt generalizing r with
  | nil => cases h
  | cons t ts ih =>
    have htail : ∀ {r}, r ∈ segments ts →
        (∃ u ∈ t :: ts, u.fileOff = r.start ∧ u.group = r.group) ∧
          ∃ u ∈ t :: ts, u.fileOff + u.size = r.stop ∧ u.group = r.group := by
      intro r hr
      obtain ⟨⟨u, hu, hu'⟩, v, hv, hv'⟩ := ih hr
      exact ⟨⟨u, List.mem_cons_of_mem _ hu, hu'⟩, v, List.mem_cons_of_mem _ hv, hv'⟩
    rcases List.mem_cons.1 h with rfl | hr
    · refine ⟨⟨t, List.mem_cons_self, rfl, rfl⟩, ?_⟩
      rcases stopSame_cases t.group (t.fileOff + t.size) (segments ts) with
        ⟨hstop, -, -⟩ | ⟨r', rs', hseg, hg, hstop, -⟩
      · exact ⟨t, List.mem_cons_self, hstop.symm, rfl⟩
      · obtain ⟨-, v, hv, hv', hvg⟩ := htail (r := r') (by rw [hseg]; exact List.mem_cons_self)
        exact ⟨v, hv, hv'.trans hstop.symm, hvg.trans hg⟩
    · exact htail (mem_of_mem_dropSame hr)

/-- Every tensor lies in a run of its group. -/
theorem exists_segment (h : FileOrder fileSize srt) (ht : t ∈ srt) : ∃ r ∈ segments srt,
    r.group = t.group ∧ r.start ≤ t.fileOff ∧ t.fileOff + t.size ≤ r.stop := by
  induction srt with
  | nil => cases ht
  | cons u ts ih =>
    have hfirst := (List.pairwise_cons.1 h.disjoint).1
    have hsize := h.size_pos u List.mem_cons_self
    rcases stopSame_cases u.group (u.fileOff + u.size) (segments ts) with
      ⟨hstop, hdrop, -⟩ | ⟨r', rs', hseg, hg, hstop, hdrop⟩
    · rcases List.mem_cons.1 ht with rfl | ht
      · exact ⟨_, List.mem_cons_self, rfl, le_rfl, hstop.ge⟩
      · obtain ⟨r, hr, hr'⟩ := ih h.tail ht
        exact ⟨r, List.mem_cons_of_mem _ (by rw [hdrop]; exact hr), hr'⟩
    · have hmem : r' ∈ segments ts := by
        rw [hseg]
        exact List.mem_cons_self
      obtain ⟨⟨v, hv, hv', -⟩, w, hw, hw', -⟩ := segments_ends hmem
      have hbefore := hfirst v hv
      have hbefore' := hfirst w hw
      rcases List.mem_cons.1 ht with rfl | ht
      · refine ⟨_, List.mem_cons_self, rfl, le_rfl, ?_⟩
        show t.fileOff + t.size ≤ stopSame _ _ _
        omega
      · obtain ⟨r, hr, hrg, hrs, hre⟩ := ih h.tail ht
        rw [hseg] at hr
        rcases List.mem_cons.1 hr with rfl | hr
        · refine ⟨_, List.mem_cons_self, hg.symm.trans hrg, ?_, ?_⟩
          · show u.fileOff ≤ t.fileOff
            omega
          · show t.fileOff + t.size ≤ stopSame _ _ _
            rwa [hstop]
        · exact ⟨r, List.mem_cons_of_mem _ (by rw [hdrop]; exact hr), hrg, hrs, hre⟩

/-- The runs are disjoint and in file order. -/
theorem segments_pairwise (h : FileOrder fileSize srt) :
    (segments srt).Pairwise fun r u => r.stop ≤ u.start := by
  induction srt with
  | nil => exact List.Pairwise.nil
  | cons t ts ih =>
    have hfirst := (List.pairwise_cons.1 h.disjoint).1
    have htail := ih h.tail
    rcases stopSame_cases t.group (t.fileOff + t.size) (segments ts) with
      ⟨hstop, hdrop, -⟩ | ⟨r', rs', hseg, hg, hstop, hdrop⟩
    · refine List.pairwise_cons.2 ⟨fun u hu => ?_, by rwa [hdrop]⟩
      obtain ⟨⟨v, hv, hv', -⟩, -⟩ := segments_ends (mem_of_mem_dropSame hu)
      show stopSame _ _ _ ≤ u.start
      rw [hstop, ← hv']
      exact hfirst v hv
    · rw [hseg] at htail
      refine List.pairwise_cons.2 ⟨fun u hu => ?_, by rw [hdrop]; exact htail.of_cons⟩
      show stopSame _ _ _ ≤ u.start
      rw [hstop]
      exact (List.pairwise_cons.1 htail).1 u (hdrop ▸ hu)

/-- The run that follows belongs to another group. -/
theorem segments_ne (srt : List TensorEnt) : (segments srt).IsChain fun r u => r.group ≠ u.group := by
  induction srt with
  | nil => exact List.IsChain.nil
  | cons t ts ih =>
    rcases stopSame_cases t.group (t.fileOff + t.size) (segments ts) with
      ⟨-, hdrop, hne⟩ | ⟨r', rs', hseg, hg, -, hdrop⟩
    · rw [segments, hdrop]
      refine List.isChain_cons.2 ⟨fun u hu => ?_, ih⟩
      exact (hne u hu).symm
    · rw [segments, hdrop]
      rw [hseg] at ih
      refine List.isChain_cons.2 ⟨fun u hu => ?_, (List.isChain_cons.1 ih).2⟩
      have := (List.isChain_cons.1 ih).1 u hu
      rwa [hg] at this

theorem segment_lt (h : FileOrder fileSize srt) (hr : r ∈ segments srt) : r.start < r.stop := by
  induction srt generalizing r with
  | nil => cases hr
  | cons t ts ih =>
    have hsize := h.size_pos t List.mem_cons_self
    have hfirst := (List.pairwise_cons.1 h.disjoint).1
    rcases List.mem_cons.1 hr with rfl | hr
    · show t.fileOff < stopSame _ _ _
      rcases stopSame_cases t.group (t.fileOff + t.size) (segments ts) with
        ⟨hstop, -, -⟩ | ⟨r', rs', hseg, -, hstop, -⟩
      · omega
      · have hmem : r' ∈ segments ts := by
          rw [hseg]
          exact List.mem_cons_self
        obtain ⟨⟨v, hv, hv', -⟩, -⟩ := segments_ends hmem
        have hlt := ih h.tail hmem
        have hbefore := hfirst v hv
        omega
    · exact ih h.tail (mem_of_mem_dropSame hr)

theorem segment_stop_le (h : FileOrder fileSize srt) (hr : r ∈ segments srt) :
    r.stop ≤ fileSize := by
  obtain ⟨-, t, ht, hstop, -⟩ := segments_ends hr
  exact hstop ▸ h.inside t ht

theorem page_mono {r u : Segment} (h : r.start ≤ u.start) : r.page ≤ u.page :=
  Nat.mul_le_mul_right _ (Nat.div_le_div_right h)

/-! ## Where the chunks begin -/

/-- The loop over the tensors after the first: `(bnd, grp)` so far and `cur`. -/
def boundaryStep (st : List (ℕ × ℤ) × ℤ) (t : TensorEnt) : List (ℕ × ℤ) × ℤ :=
  if t.group = st.2 then st
  else if alignDown t.fileOff ≤ (st.1.getLastD (0, GRP_HEADER)).1 then (st.1, t.group)
  else (st.1 ++ [(alignDown t.fileOff, t.group)], t.group)

/-- `bnd` and `grp` without the final `region_len`, for the first tensor `t` and the
others in file order. -/
def boundaries (t : TensorEnt) (srt : List TensorEnt) : List (ℕ × ℤ) :=
  let start :=
    if alignDown t.fileOff = 0 then [(0, t.group)]
    else [(0, GRP_HEADER), (alignDown t.fileOff, t.group)]
  (srt.foldl boundaryStep (start, t.group)).1

/-- The boundaries after `last`: the page of a run, unless an earlier run began there. -/
def openings (last : ℕ) : List Segment → List (ℕ × ℤ)
  | [] => []
  | r :: rs => if r.page ≤ last then openings last rs else (r.page, r.group) :: openings r.page rs

/-- The loop over the tensors is a loop over the runs. -/
theorem foldl_boundaryStep (ts : List TensorEnt) (bs : List (ℕ × ℤ)) (cur : ℤ) (hbs : bs ≠ []) :
    (ts.foldl boundaryStep (bs, cur)).1 =
      bs ++ openings (bs.getLastD (0, GRP_HEADER)).1 (dropSame cur (segments ts)) := by
  induction ts generalizing bs cur with
  | nil => simp [segments, dropSame, openings]
  | cons t ts ih =>
    rw [List.foldl_cons, segments]
    by_cases hg : t.group = cur
    · -- the run goes on
      subst hg
      have hstep : boundaryStep (bs, t.group) t = (bs, t.group) := if_pos rfl
      rw [hstep, ih bs _ hbs]
      simp [dropSame]
    · have hdrop : ∀ stop, dropSame cur (⟨t.fileOff, stop, t.group⟩ :: dropSame t.group (segments ts)) =
          ⟨t.fileOff, stop, t.group⟩ :: dropSame t.group (segments ts) := fun stop => if_neg hg
      rw [hdrop, openings]
      simp only [boundaryStep, if_neg hg]
      show (List.foldl boundaryStep (if alignDown t.fileOff ≤ (bs.getLastD (0, GRP_HEADER)).1 then
        (bs, t.group) else (bs ++ [(alignDown t.fileOff, t.group)], t.group)) ts).1 = bs ++
          if alignDown t.fileOff ≤ (bs.getLastD (0, GRP_HEADER)).1 then _ else _
      split
      · exact ih bs _ hbs
      · rw [ih _ _ (by simp), List.append_assoc]
        simp [Segment.page]

/-- The label of the first chunk. -/
def firstLabel : List Segment → ℤ
  | [] => GRP_HEADER
  | r :: _ => if r.page = 0 then r.group else GRP_HEADER

/-- The boundaries that the loop computes. -/
theorem boundaries_eq (t : TensorEnt) (ts : List TensorEnt) :
    boundaries t ts =
      (0, firstLabel (segments (t :: ts))) :: openings 0 (segments (t :: ts)) := by
  have hpage : ∀ stop g, Segment.page ⟨t.fileOff, stop, g⟩ = alignDown t.fileOff := fun _ _ => rfl
  rw [boundaries, segments]
  simp only [firstLabel, openings, hpage]
  split
  · rename_i hzero
    rw [foldl_boundaryStep _ _ _ (by simp), hzero]
    simp
  · rename_i hpos
    have hpos' : ¬ alignDown t.fileOff ≤ 0 := by omega
    rw [foldl_boundaryStep _ _ _ (by simp), if_neg hpos']
    simp

/-- The boundaries as the code computes them, for tensors in file order. -/
def bounds (srt : List TensorEnt) : List (ℕ × ℤ) :=
  (0, firstLabel (segments srt)) :: openings 0 (segments srt)

theorem lt_of_mem_openings {p : ℕ × ℤ} (h : p ∈ openings last rs) : last < p.1 := by
  induction rs generalizing last with
  | nil => cases h
  | cons r rs ih =>
    rw [openings] at h
    split at h
    · exact ih h
    · rename_i hgt
      rcases List.mem_cons.1 h with rfl | h
      · exact Nat.lt_of_not_le hgt
      · exact (Nat.lt_of_not_le hgt).trans (ih h)

theorem openings_pairwise (last : ℕ) (rs : List Segment) :
    (openings last rs).Pairwise fun p q => p.1 < q.1 := by
  induction rs generalizing last with
  | nil => exact List.Pairwise.nil
  | cons r rs ih =>
    rw [openings]
    split
    · exact ih last
    · exact List.pairwise_cons.2 ⟨fun p hp => lt_of_mem_openings hp, ih r.page⟩

theorem bounds_pairwise (srt : List TensorEnt) : (bounds srt).Pairwise fun p q => p.1 < q.1 :=
  List.pairwise_cons.2 ⟨fun _ hp => lt_of_mem_openings hp, openings_pairwise 0 _⟩

theorem page_mem_openings {u : Segment} (hrs : rs.Pairwise fun r u => r.page ≤ u.page)
    (hu : u ∈ rs) (hlast : last < u.page) : ∃ g, (u.page, g) ∈ openings last rs := by
  induction rs generalizing last with
  | nil => cases hu
  | cons r rs ih =>
    obtain ⟨hhead, htail⟩ := List.pairwise_cons.1 hrs
    rw [openings]
    split
    · rcases List.mem_cons.1 hu with rfl | hu
      · omega
      · exact ih htail hu hlast
    · rcases List.mem_cons.1 hu with rfl | hu
      · exact ⟨u.group, List.mem_cons_self⟩
      · rcases (hhead u hu).eq_or_lt with heq | hlt
        · refine ⟨r.group, ?_⟩
          rw [← heq]
          exact List.mem_cons_self
        · obtain ⟨g', hg'⟩ := ih htail hu hlt
          exact ⟨g', List.mem_cons_of_mem _ hg'⟩

end

/-! ## What the arrays hold -/

namespace BoundaryArrays

section

variable {cap fileSize : ℕ} {L : List (ℕ × ℤ)} {a mem : BoundaryArrays} {b : ℕ} {g cur : ℤ}
  {t : TensorEnt} {ts srt : List TensorEnt}

/-- The arrays have the last `2 ^ 32` of the boundaries, each at its index in 32 bits. -/
structure Keeps (L : List (ℕ × ℤ)) (a : BoundaryArrays) : Prop where
  nb : a.nb = L.length % 2 ^ 32
  entry : ∀ (i : ℕ) (h : i < L.length), L.length ≤ i + 2 ^ 32 →
    (a.bnd (i % 2 ^ 32), a.grp (i % 2 ^ 32)) = L[i]

theorem Keeps.push (h : Keeps L a) (hcap : L.length < cap) (b : ℕ) (g : ℤ) :
    ∃ a', a.push cap b g = some a' ∧ Keeps (L ++ [(b, g)]) a' := by
  have hnb := h.nb
  have hroom : a.nb < cap := hnb ▸ (Nat.mod_le _ _).trans_lt hcap
  refine ⟨_, if_pos hroom, ?_, fun i hi hkept => ?_⟩
  · show (a.nb + 1) % 2 ^ 32 = _
    rw [List.length_append, List.length_singleton, hnb]
    omega
  · rw [List.length_append, List.length_singleton] at hi hkept
    rcases Nat.lt_succ_iff_lt_or_eq.1 hi with hlt | rfl
    · -- an older entry, at another index
      have hne : i % 2 ^ 32 ≠ a.nb := by omega
      show (update a.bnd a.nb b (i % 2 ^ 32), update a.grp a.nb g (i % 2 ^ 32)) = _
      rw [update_of_ne hne, update_of_ne hne, h.entry i hlt (by omega),
        List.getElem_append_left hlt]
    · show (update a.bnd a.nb b (L.length % 2 ^ 32), update a.grp a.nb g (L.length % 2 ^ 32)) = _
      rw [← hnb, update_self, update_self, List.getElem_append_right le_rfl]
      simp

theorem Keeps.last (h : Keeps (L ++ [(b, g)]) a) : a.bnd a.last = b ∧ a.grp a.last = g := by
  have hentry := h.entry L.length (by simp) (by simp)
  have hlast : a.last = L.length % 2 ^ 32 := by
    rw [BoundaryArrays.last, h.nb, List.length_append, List.length_singleton]
    omega
  rw [hlast]
  simpa using hentry

/-- The loop pushes what the one over lists does. -/
theorem Keeps.cutLoop (h : Keeps L a) (hne : L ≠ []) (cur : ℤ)
    (hcap : L.length + ts.length < cap) :
    ∃ a', cutLoop cap a cur ts = some a' ∧ Keeps (ts.foldl boundaryStep (L, cur)).1 a' ∧
      (ts.foldl boundaryStep (L, cur)).1.length < cap := by
  induction ts generalizing L a cur with
  | nil => exact ⟨a, rfl, h, hcap⟩
  | cons t ts ih =>
    rw [List.length_cons] at hcap
    obtain ⟨L', ⟨b, g⟩, rfl⟩ := (List.eq_nil_or_concat L).resolve_left hne
    rw [List.concat_eq_append] at h hcap hne ⊢
    rw [List.foldl_cons, BoundaryArrays.cutLoop, boundaryStep, h.last.1, List.getLastD_concat]
    dsimp only
    -- a tensor of the same group, then one in a page that has a boundary
    split
    · exact ih h hne _ (by omega)
    · split
      · exact ih h hne _ (by omega)
      · obtain ⟨a', hpush, hkeeps⟩ := h.push (Nat.lt_of_le_of_lt (Nat.le_add_right _ _) hcap)
          (alignDown t.fileOff) t.group
        rw [hpush]
        refine ih hkeeps (by simp) _ ?_
        rw [List.length_append, List.length_singleton]
        omega

/-- The boundaries that the specs are made of. -/
def kept (L : List (ℕ × ℤ)) : List (ℕ × ℤ) := L.drop (L.length / 2 ^ 32 * 2 ^ 32)

theorem Keeps.kept (h : Keeps L a) :
    (List.range a.nb).map (fun c => (a.bnd c, a.grp c)) = kept L := by
  have hlen := Nat.div_add_mod L.length (2 ^ 32)
  have hnb := h.nb
  refine List.ext_getElem (by simp [BoundaryArrays.kept]; omega) fun c hc hc' => ?_
  rw [List.length_map, List.length_range] at hc
  rw [List.getElem_map, List.getElem_range]
  have hentry := h.entry (L.length / 2 ^ 32 * 2 ^ 32 + c) (by omega) (by omega)
  rw [show (L.length / 2 ^ 32 * 2 ^ 32 + c) % 2 ^ 32 = c by omega] at hentry
  simpa [BoundaryArrays.kept] using hentry

/-- Entry 0 takes the group of a first tensor in page 0. -/
theorem Keeps.relabel (h : Keeps [(b, g)] a) (g' : ℤ) :
    Keeps [(b, g')] { a with grp := update a.grp 0 g' } := by
  refine ⟨h.nb, fun i hi _ => ?_⟩
  obtain rfl : i = 0 := by simpa using hi
  have hentry := h.entry 0 (by simp) (by simp)
  show (a.bnd (0 % 2 ^ 32), update a.grp 0 g' (0 % 2 ^ 32)) = (b, g')
  rw [Nat.zero_mod, update_self]
  rw [Nat.zero_mod] at hentry
  exact congrArg (fun p : ℕ × ℤ => (p.1, g')) hentry

/-- `bnd[nb]` is behind the entries. -/
theorem map_range_update (a : BoundaryArrays) (b : ℕ) :
    (List.range a.nb).map (fun c => (update a.bnd a.nb b c, a.grp c)) =
      (List.range a.nb).map fun c => (a.bnd c, a.grp c) :=
  List.map_congr_left fun c hc => by rw [update_of_ne (List.mem_range.1 hc).ne]

/-- The writes stay inside the arrays. -/
theorem cut_spec (fileSize : ℕ) (mem : BoundaryArrays) (t : TensorEnt) (ts : List TensorEnt) :
    ∃ a, cut fileSize ((t :: ts).length + 2) mem t ts = some a ∧
      (List.range a.nb).map (fun c => (a.bnd c, a.grp c)) = kept (bounds (t :: ts)) ∧
      a.bnd a.nb = alignUp fileSize ∧ a.nb = (bounds (t :: ts)).length % 2 ^ 32 := by
  rw [bounds, ← boundaries_eq, boundaries, List.length_cons]
  have hempty : Keeps [] { mem with nb := 0 } := ⟨rfl, fun i hi => absurd hi (Nat.not_lt_zero i)⟩
  have hpos : ([] : List (ℕ × ℤ)).length < ts.length + 1 + 2 := Nat.succ_pos _
  obtain ⟨a₁, hpush₁, hkeeps₁⟩ := hempty.push hpos 0 GRP_HEADER
  -- the boundaries before the loop
  obtain ⟨a₂, L, hstart, hkeeps₂, hlast, hne, hlen, hL⟩ : ∃ a₂ L,
      a₁.pushFirst (ts.length + 1 + 2) t = some a₂ ∧
      Keeps L a₂ ∧ a₂.grp a₂.last = t.group ∧ L ≠ [] ∧ L.length ≤ 2 ∧
      (if alignDown t.fileOff = 0 then [(0, t.group)]
        else [(0, GRP_HEADER), (alignDown t.fileOff, t.group)]) = L := by
    by_cases hzero : alignDown t.fileOff = 0
    · have hkeeps := hkeeps₁.relabel t.group
      exact ⟨_, _, if_pos hzero, hkeeps, (Keeps.last (L := []) hkeeps).2, by simp, by simp,
        if_pos hzero⟩
    · have hone : ([] ++ [(0, GRP_HEADER)] : List (ℕ × ℤ)).length < ts.length + 1 + 2 := by
        simp
      obtain ⟨a₂, hpush₂, hkeeps₂⟩ := hkeeps₁.push hone (alignDown t.fileOff) t.group
      exact ⟨a₂, _, (if_neg hzero).trans hpush₂, hkeeps₂, hkeeps₂.last.2, by simp, by simp,
        if_neg hzero⟩
  have hroom₂ : L.length + ts.length < ts.length + 1 + 2 := by omega
  obtain ⟨a₃, hloop, hkeeps₃, hlen₃⟩ := hkeeps₂.cutLoop hne t.group hroom₂
  have hroom : a₃.nb < ts.length + 1 + 2 := by
    rw [hkeeps₃.nb]
    exact (Nat.mod_le _ _).trans_lt hlen₃
  -- the write of the closing boundary is at `nb`, behind the entries
  refine ⟨{ a₃ with bnd := update a₃.bnd a₃.nb (alignUp fileSize) }, ?_, ?_, update_self .., ?_⟩
  · simp only [cut, hpush₁, hstart, Option.bind_some, Option.bind_eq_bind, hlast, hloop, if_pos hroom]
  · rw [hL, ← hkeeps₃.kept]
    exact a₃.map_range_update _
  · rw [hL]
    exact hkeeps₃.nb

end

end BoundaryArrays

/-! ## The boundaries of any inventory -/

/-- What `qsort` may make of the tensors. -/
structure Sorted (tensors srt : List TensorEnt) : Prop where
  perm : srt.Perm tensors
  order : srt.Pairwise fun t u => t.fileOff ≤ u.fileOff

/-- Tensors of positive size inside the file, in any order, with any gaps and overlaps. -/
structure InFile (fileSize : ℕ) (tensors : List TensorEnt) : Prop where
  size_pos : ∀ t ∈ tensors, 0 < t.size
  inside : ∀ t ∈ tensors, t.fileOff + t.size ≤ fileSize

section

variable {fileSize : ℕ} {tensors srt : List TensorEnt} {inv : Inventory} {mem : BoundaryArrays}
  {last : ℕ} {rs : List Segment}

theorem mem_openings {q : ℕ × ℤ} (h : q ∈ openings last rs) : ∃ r ∈ rs, (r.page, r.group) = q := by
  induction rs generalizing last with
  | nil => cases h
  | cons r rs ih =>
    rw [openings] at h
    split at h
    · obtain ⟨u, hu, heq⟩ := ih h
      exact ⟨u, List.mem_cons_of_mem _ hu, heq⟩
    · rcases List.mem_cons.1 h with rfl | h
      · exact ⟨r, List.mem_cons_self, rfl⟩
      · obtain ⟨u, hu, heq⟩ := ih h
        exact ⟨u, List.mem_cons_of_mem _ hu, heq⟩

theorem InFile.perm (h : InFile fileSize tensors) (hsrt : Sorted tensors srt) :
    InFile fileSize srt where
  size_pos t ht := h.size_pos t (hsrt.perm.mem_iff.1 ht)
  inside t ht := h.inside t (hsrt.perm.mem_iff.1 ht)

/-- The boundaries are pages of the file. -/
theorem InFile.bounds (h : InFile fileSize srt) (hne : srt ≠ []) {q : ℕ × ℤ} (hq : q ∈ bounds srt) :
    q.1 % RESIDCTL_ALIGN = 0 ∧ q.1 < alignUp fileSize := by
  have hpage : ∀ t ∈ srt, alignDown t.fileOff < alignUp fileSize := by
    intro t ht
    have hsize := h.size_pos t ht
    have hin := h.inside t ht
    calc alignDown t.fileOff ≤ t.fileOff := alignDown_le _
      _ < fileSize := by omega
      _ ≤ alignUp fileSize := le_alignUp _
  rcases List.mem_cons.1 hq with rfl | hq
  · obtain ⟨t, ht⟩ := List.exists_mem_of_ne_nil _ hne
    exact ⟨Nat.zero_mod _, (Nat.zero_le _).trans_lt (hpage t ht)⟩
  · obtain ⟨r, hr, rfl⟩ := mem_openings hq
    obtain ⟨⟨t, ht, hstart, -⟩, -⟩ := segments_ends hr
    rw [Segment.page, ← hstart]
    exact ⟨Nat.mul_mod_left _ _, hpage t ht⟩

/-- A cut of these boundaries, as `build_inventory_and_table` leaves it. -/
structure IsCut (fileSize : ℕ) (srt : List TensorEnt) (a : BoundaryArrays) : Prop where
  entries : (List.range a.nb).map (fun c => (a.bnd c, a.grp c)) =
    BoundaryArrays.kept (bounds srt)
  stop : a.bnd a.nb = alignUp fileSize
  nb : a.nb = (bounds srt).length % 2 ^ 32

variable {a : BoundaryArrays}

/-- The groups of the runs that are the first to begin in their page, and of page 0. -/
def pageGroups (srt : List TensorEnt) : List ℤ := (BoundaryArrays.kept (bounds srt)).map Prod.snd

theorem IsCut.groups (h : IsCut fileSize srt a) : (List.range a.nb).map a.grp = pageGroups srt := by
  rw [pageGroups, ← h.entries, List.map_map]
  rfl

/-- The writes of the builder stay inside its arrays, and it gets to its end when the layer lists
are there. -/
theorem exists_cut (fileSize : ℕ) (mem : Alloc) (hne : srt ≠ []) :
    ∃ a, IsCut fileSize srt a ∧ buildInventoryAndTable fileSize mem srt =
      if mem.HasLists (layerCount srt) (pageGroups srt) then some (a.inventory (layerCount srt))
      else none := by
  obtain ⟨t, ts, rfl⟩ := List.exists_cons_of_ne_nil hne
  obtain ⟨a, hcut, hentries, hstop, hnb⟩ :=
    BoundaryArrays.cut_spec fileSize ⟨mem.bnd, mem.grp, 0⟩ t ts
  have hcuts : IsCut fileSize (t :: ts) a := ⟨hentries, hstop, hnb⟩
  refine ⟨a, hcuts, ?_⟩
  rw [← hcuts.groups, buildInventoryAndTable, hcut]
  rfl

theorem IsCut.entry (h : IsCut fileSize srt a) {c : ℕ} (hc : c < a.nb) :
    (bounds srt)[(bounds srt).length / 2 ^ 32 * 2 ^ 32 + c]? = some (a.bnd c, a.grp c) := by
  have hget := congrArg (fun l => l[c]?) h.entries
  simp only [List.getElem?_map, List.getElem?_range hc, Option.map_some, BoundaryArrays.kept,
    List.getElem?_drop] at hget
  exact hget.symm

end

/-! ## Labels -/

/-- A layer or one of the three roles. -/
def Signalled (g : ℤ) : Prop := 0 ≤ g ∨ g = GRP_EMBD ∨ g = GRP_OUTNORM ∨ g = GRP_OUTPUT

instance (g : ℤ) : Decidable (Signalled g) := inferInstanceAs (Decidable (_ ∨ _))

/-- Looking up the indices of the entries that satisfy `p` gives these entries. -/
theorem map_getElem?_filter_range {α : Type*} (p : α → Bool) (l : List α) :
    ((List.range l.length).filter fun i => (l[i]?).any p).map (fun i => l[i]?) =
      (l.filter p).map some := by
  induction l with
  | nil => rfl
  | cons a l ih =>
    rw [List.length_cons, List.range_succ_eq_map, List.filter_cons, List.filter_cons,
      List.filter_map]
    have hshift : (List.filter ((fun i => ((a :: l)[i]?).any p) ∘ Nat.succ)
        (List.range l.length)).map ((fun i => (a :: l)[i]?) ∘ Nat.succ) = (l.filter p).map some := ih
    cases hp : p a with
    | true => simpa [hp] using hshift
    | false => simpa [hp] using hshift

theorem lastOfGroup_eq (groups : List ℤ) (g : ℤ) :
    lastOfGroup groups g =
      ((List.range groups.length).filter fun c => groups[c]? = some g).getLast? := by
  unfold lastOfGroup
  generalize List.range groups.length = cs
  induction cs using List.reverseRecOn with
  | nil => rfl
  | append_singleton cs c ih =>
    rw [List.foldl_append, List.foldl_cons, List.foldl_nil, List.filter_append]
    by_cases hc : groups[c]? = some g
    · simp [hc]
    · simp [hc, ih]

end Residctl
