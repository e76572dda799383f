import Residctl.Inventory

/-!
# Which bytes a layer's signals cover

`build_inventory_and_table` cuts the file at page boundaries only: of the runs of
same-group tensors that begin in one page the first one names the chunk. The chunks
signalled for a layer or a role hold all of its bytes exactly when its runs do not share
pages with other runs in the wrong way (`Separable`), the boundaries do not exhaust the 32-bit
counter, and the layers have their lists.
-/

namespace Residctl

open Startup

section

variable {fileSize : ℕ} {srt ts : List TensorEnt} {t u : TensorEnt} {r : Segment} {rs : List Segment}
  {g : ℤ} {b c last : ℕ}

/-! ## The first run of a page -/

/-- No earlier run begins in the page. -/
def Opens (rs : List Segment) (r : Segment) : Prop := rs.find? (fun u => u.page = r.page) = some r

instance (rs : List Segment) (r : Segment) : Decidable (Opens rs r) :=
  inferInstanceAs (Decidable (_ = _))

/-- The pages in which a run of group `g` is the first to begin. -/
def openers (rs : List Segment) (g : ℤ) : List ℕ :=
  (rs.filter fun r => r.group = g ∧ Opens rs r).map Segment.page

theorem opens_cons_of_lt {u : Segment} (h : r.page < u.page) : Opens (r :: rs) u ↔ Opens rs u := by
  rw [Opens, Opens, List.find?_cons_of_neg (by simpa using h.ne)]

theorem opens_head (r : Segment) (rs : List Segment) : Opens (r :: rs) r :=
  List.find?_cons_of_pos (by simp)

/-- A later run that opens a page begins in a later page. -/
theorem page_lt_of_opens {u : Segment} (hlt : r.start < u.start) (hop : Opens (r :: rs) u) :
    r.page < u.page := by
  refine lt_of_le_of_ne (page_mono hlt.le) fun heq => ?_
  have hfirst : r = u := by
    rw [Opens, List.find?_cons_of_pos (by simpa using heq)] at hop
    exact Option.some.inj hop
  rw [hfirst] at hlt
  exact lt_irrefl _ hlt

/-- The boundaries are the pages of the runs that open one. -/
theorem openings_eq (hrs : rs.Pairwise fun r u => r.start < u.start) (last : ℕ) :
    openings last rs =
      (rs.filter fun r => last < r.page ∧ Opens rs r).map fun r => (r.page, r.group) := by
  induction rs generalizing last with
  | nil => rfl
  | cons r rs ih =>
    obtain ⟨hhead, htail⟩ := List.pairwise_cons.1 hrs
    rw [openings]
    split
    · rename_i hle
      -- the page is taken
      rw [ih htail, List.filter_cons_of_neg (by simp; omega)]
      congr 1
      refine List.filter_congr fun u hu => ?_
      have hiff : last < u.page ∧ Opens rs u ↔ last < u.page ∧ Opens (r :: rs) u :=
        and_congr_right fun hlt => (opens_cons_of_lt (by omega)).symm
      simp only [hiff]
    · rename_i hgt
      rw [ih htail, List.filter_cons_of_pos (by simpa using ⟨by omega, opens_head r rs⟩),
        List.map_cons]
      congr 2
      refine List.filter_congr fun u hu => ?_
      have hiff : r.page < u.page ∧ Opens rs u ↔ last < u.page ∧ Opens (r :: rs) u := by
        constructor
        · rintro ⟨hlt, hop⟩
          exact ⟨by omega, (opens_cons_of_lt hlt).2 hop⟩
        · rintro ⟨hlt, hop⟩
          have hlt' := page_lt_of_opens (hhead u hu) hop
          exact ⟨hlt', (opens_cons_of_lt hlt').1 hop⟩
      simp only [hiff]

theorem segments_start_lt (h : FileOrder fileSize srt) :
    (segments srt).Pairwise fun r u => r.start < u.start := by
  refine (segments_pairwise h).imp_of_mem fun {r u} hr _ hru => ?_
  exact (segment_lt h hr).trans_le hru

/-- The boundaries that carry the label of a layer or role. -/
theorem filter_bounds (h : FileOrder fileSize srt) (hg : g ≠ GRP_HEADER) :
    ((bounds srt).filter fun p => p.2 = g).map Prod.fst = openers (segments srt) g := by
  have hstart := segments_start_lt h
  rw [bounds, openings_eq hstart, openers]
  generalize segments srt = rs at hstart
  cases rs with
  | nil => simp [firstLabel, hg.symm]
  | cons r rs =>
    obtain ⟨hhead, -⟩ := List.pairwise_cons.1 hstart
    -- behind the first run only runs in later pages open one
    have hrest : rs.filter (fun u => 0 < u.page ∧ Opens (r :: rs) u) =
        rs.filter fun u => Opens (r :: rs) u := by
      refine List.filter_congr fun u hu => ?_
      have hiff : 0 < u.page ∧ Opens (r :: rs) u ↔ Opens (r :: rs) u :=
        ⟨And.right, fun hop => ⟨Nat.zero_lt_of_lt (page_lt_of_opens (hhead u hu) hop), hop⟩⟩
      simp only [hiff]
    have hopen := opens_head r rs
    have htail : ((rs.filter fun u => Opens (r :: rs) u).map fun u => (u.page, u.group)).filter
        (fun p => p.2 = g) = (rs.filter fun u => u.group = g ∧ Opens (r :: rs) u).map
          fun u => (u.page, u.group) := by
      rw [List.filter_map, List.filter_filter]
      congr 1
      refine List.filter_congr fun u _ => ?_
      simp
    by_cases hzero : r.page = 0
    · have hin : (r :: rs).filter (fun u => 0 < u.page ∧ Opens (r :: rs) u) =
          rs.filter fun u => Opens (r :: rs) u := by
        rw [List.filter_cons_of_neg (by simp [hzero]), hrest]
      rw [hin, firstLabel, if_pos hzero]
      by_cases hrg : r.group = g
      · rw [List.filter_cons_of_pos (by simpa using hrg), htail,
          List.filter_cons_of_pos (by simpa using ⟨hrg, hopen⟩)]
        simp [hzero]
      · rw [List.filter_cons_of_neg (by simpa using hrg), htail,
          List.filter_cons_of_neg (by simpa using fun hh => absurd hh hrg)]
        simp
    · have hin : (r :: rs).filter (fun u => 0 < u.page ∧ Opens (r :: rs) u) =
          r :: rs.filter fun u => Opens (r :: rs) u := by
        rw [List.filter_cons_of_pos (by simpa using ⟨Nat.pos_of_ne_zero hzero, hopen⟩), hrest]
      rw [hin, firstLabel, if_neg hzero, List.filter_cons_of_neg (by simpa using hg.symm),
        List.map_cons]
      by_cases hrg : r.group = g
      · rw [List.filter_cons_of_pos (by simpa using hrg), htail,
          List.filter_cons_of_pos (by simpa using ⟨hrg, hopen⟩)]
        simp
      · rw [List.filter_cons_of_neg (by simpa using hrg), htail,
          List.filter_cons_of_neg (by simpa using fun hh => absurd hh hrg)]
        simp

/-! ## The chunks of the table -/

/-- A chunk begins in the page of every run. -/
theorem page_mem_bounds (h : FileOrder fileSize srt) (hr : r ∈ segments srt) :
    ∃ g, (r.page, g) ∈ bounds srt := by
  rcases Nat.eq_zero_or_pos r.page with hzero | hpos
  · rw [hzero]
    exact ⟨_, List.mem_cons_self⟩
  · obtain ⟨g, hg⟩ := page_mem_openings
      ((segments_start_lt h).imp fun hlt => page_mono hlt.le) hr hpos
    exact ⟨g, List.mem_cons_of_mem _ hg⟩

/-- Every chunk but the first begins in the page of a run. -/
theorem exists_page_of_mem_bounds (h : FileOrder fileSize srt) {p : ℕ × ℤ} (hp : p ∈ bounds srt) :
    p.1 = 0 ∨ ∃ r ∈ segments srt, r.page = p.1 := by
  rcases List.mem_cons.1 hp with rfl | hp
  · exact Or.inl rfl
  · rw [openings_eq (segments_start_lt h)] at hp
    obtain ⟨r, hr, rfl⟩ := List.mem_map.1 hp
    exact Or.inr ⟨r, (List.mem_filter.1 hr).1, rfl⟩

/-- The first byte of a chunk. -/
def chunkStart (srt : List TensorEnt) (c : ℕ) : Option ℕ := (bounds srt)[c]?.map Prod.fst

/-- The byte after a chunk. -/
def chunkEnd (fileSize : ℕ) (srt : List TensorEnt) (c : ℕ) : ℕ :=
  (chunkStart srt (c + 1)).getD (alignUp fileSize)

theorem chunkStart_lt {p q : ℕ} (hbc : b < c) (hp : chunkStart srt b = some p)
    (hq : chunkStart srt c = some q) : p < q := by
  obtain ⟨x, hx, rfl⟩ := Option.map_eq_some_iff.1 hp
  obtain ⟨y, hy, rfl⟩ := Option.map_eq_some_iff.1 hq
  obtain ⟨hb, rfl⟩ := List.getElem?_eq_some_iff.1 hx
  obtain ⟨hc, rfl⟩ := List.getElem?_eq_some_iff.1 hy
  exact List.pairwise_iff_getElem.1 (bounds_pairwise srt) b c hb hc hbc

theorem chunkStart_inj {p : ℕ} (hb : chunkStart srt b = some p) (hc : chunkStart srt c = some p) :
    b = c := by
  rcases lt_trichotomy b c with hlt | heq | hlt
  · exact absurd (chunkStart_lt hlt hb hc) (lt_irrefl _)
  · exact heq
  · exact absurd (chunkStart_lt hlt hc hb) (lt_irrefl _)

/-- A run's page ends inside the chunk that begins there. -/
theorem start_lt_chunkEnd (h : FileOrder fileSize srt) (hr : r ∈ segments srt)
    (hc : chunkStart srt c = some r.page) : r.start < chunkEnd fileSize srt c := by
  have hpage := lt_alignDown_add r.start
  unfold chunkEnd
  cases hnext : chunkStart srt (c + 1) with
  | none =>
    have hlt := (segment_lt h hr).trans_le (segment_stop_le h hr)
    exact hlt.trans_le (le_alignUp fileSize)
  | some q =>
    have hq := chunkStart_lt (Nat.lt_succ_self c) hc hnext
    obtain ⟨p, hp, rfl⟩ := Option.map_eq_some_iff.1 hnext
    rcases exists_page_of_mem_bounds h (List.mem_of_getElem? hp) with hzero | ⟨u, -, hu⟩
    · omega
    · rw [← hu] at hq
      have hnext := alignDown_add_le hq
      show r.start < p.1
      rw [← hu]
      exact hpage.trans_le hnext

/-! ## The chunks of a label -/

/-- The chunks that carry label `g`, in file order. -/
def labelled (srt : List TensorEnt) (g : ℤ) : List ℕ :=
  (List.range (bounds srt).length).filter fun c => ((bounds srt).map Prod.snd)[c]? = some g

/-- They begin in the pages that a run of the group opens. -/
theorem map_chunkStart_labelled (h : FileOrder fileSize srt) (hg : g ≠ GRP_HEADER) :
    (labelled srt g).map (chunkStart srt) = (openers (segments srt) g).map some := by
  have hfilter : labelled srt g = (List.range (bounds srt).length).filter
      fun c => ((bounds srt)[c]?).any fun p => p.2 = g := by
    refine List.filter_congr fun c _ => ?_
    rw [List.getElem?_map]
    cases (bounds srt)[c]? <;> simp
  have hcomp : chunkStart srt = Option.map Prod.fst ∘ fun c => (bounds srt)[c]? := rfl
  rw [hfilter, hcomp, ← List.map_map, map_getElem?_filter_range, ← filter_bounds h hg,
    List.map_map, List.map_map]
  rfl

/-- The page in which the last chunk labelled `g` begins. -/
def lastOpener (rs : List Segment) (g : ℤ) : Option ℕ := (openers rs g).getLast?

theorem lastOfGroup_start (h : FileOrder fileSize srt) (hg : g ≠ GRP_HEADER) :
    (lastOfGroup ((bounds srt).map Prod.snd) g).map (chunkStart srt) =
      (lastOpener (segments srt) g).map some := by
  rw [lastOfGroup_eq, List.length_map, ← List.getLast?_map, lastOpener, ← List.getLast?_map]
  exact congrArg List.getLast? (map_chunkStart_labelled h hg)

/-! ## Which chunk is signalled for which tensor -/

/-- `residctl_llama_notify_layer` or `residctl_llama_notify_role` of group `g` signals
chunk `c`. The tensors of other groups are read once, at load. -/
def Inventory.Signals (inv : Inventory) (g : ℤ) (c : ℕ) : Prop :=
  if 0 ≤ g then c ∈ inv.layerChunks g.toNat
  else if g = GRP_EMBD then inv.chunkEmbd = some c
  else if g = GRP_OUTNORM then inv.chunkOutnorm = some c
  else if g = GRP_OUTPUT then inv.chunkOutput = some c
  else True

/-- The byte ranges of a chunk and of a tensor meet. -/
def ChunkSpec.Overlaps (sp : ChunkSpec) (t : TensorEnt) : Prop :=
  sp.fileOff < t.fileOff + t.size ∧ t.fileOff < sp.fileOff + sp.len

/-- Every byte that a layer or role reads is in a chunk, and the chunks that it is in are signalled
for it. -/
structure Inventory.Covers (inv : Inventory) (srt : List TensorEnt) : Prop where
  held : ∀ t ∈ srt, Signalled t.group → ∀ off, t.fileOff ≤ off → off < t.fileOff + t.size →
    ∃ sp ∈ inv.specs, sp.fileOff ≤ off ∧ off < sp.fileOff + sp.len
  signalled : ∀ t ∈ srt, ∀ c sp, inv.specs[c]? = some sp → sp.Overlaps t → inv.Signals t.group c

/-- A chunk that begins in `page` is signalled for group `g`: for a layer, `page` is
among the first six pages that a run of the layer opens; for a role, it is the last page
that a run of the role opens, or of the embedding when the role opens none. -/
def Served (rs : List Segment) (g : ℤ) (page : ℕ) : Prop :=
  if 0 ≤ g then page ∈ (openers rs g).take MAX_CHUNKS_PER_LAYER
  else if g = GRP_EMBD then lastOpener rs GRP_EMBD = some page
  else if g = GRP_OUTNORM then
    (lastOpener rs GRP_OUTNORM).or (lastOpener rs GRP_EMBD) = some page
  else if g = GRP_OUTPUT then
    (lastOpener rs GRP_OUTPUT).or (lastOpener rs GRP_EMBD) = some page
  else True

instance (rs : List Segment) (g : ℤ) (page : ℕ) : Decidable (Served rs g page) :=
  inferInstanceAs (Decidable (ite _ _ _))

/-- The runs of layers and roles do not share pages in the wrong way: each begins in a
page that is signalled for its group, and the runs behind it begin in that page as well
or in a page after its end. -/
structure Separable (srt : List TensorEnt) : Prop where
  served : ∀ r ∈ segments srt, Served (segments srt) r.group r.page
  apart : ∀ r ∈ segments srt, Signalled r.group → ∀ u ∈ segments srt, r.start < u.start →
    u.page = r.page ∨ r.stop ≤ u.page

/-- What the builder leaves behind, in terms of the boundaries. -/
structure Inventory.FromBounds (inv : Inventory) (fileSize : ℕ) (srt : List TensorEnt) : Prop where
  group : inv.chunkGroup = (bounds srt).map Prod.snd
  specs : ∀ c, (inv.specs[c]?).map (fun sp => (sp.fileOff, sp.len)) =
    (chunkStart srt c).map fun p => (p, chunkEnd fileSize srt c - p)
  embd : inv.chunkEmbd = lastOfGroup ((bounds srt).map Prod.snd) GRP_EMBD
  outnorm : inv.chunkOutnorm =
    (lastOfGroup ((bounds srt).map Prod.snd) GRP_OUTNORM).or inv.chunkEmbd
  output : inv.chunkOutput = (lastOfGroup ((bounds srt).map Prod.snd) GRP_OUTPUT).or inv.chunkEmbd

/-- The chunk before a boundary ends there or earlier. -/
theorem chunkEnd_le {q : ℕ} (hbc : b < c) (hc : chunkStart srt c = some q) :
    chunkEnd fileSize srt b ≤ q := by
  unfold chunkEnd
  cases hnext : chunkStart srt (b + 1) with
  | none =>
    obtain ⟨x, hx, -⟩ := Option.map_eq_some_iff.1 hc
    have hlt := (List.getElem?_eq_some_iff.1 hx).1
    have hge := List.getElem?_eq_none_iff.1 (Option.map_eq_none_iff.1 hnext)
    omega
  | some n =>
    show n ≤ q
    rcases (Nat.succ_le_of_lt hbc).eq_or_lt with rfl | hlt
    · rw [Nat.succ_eq_add_one, hnext] at hc
      exact (Option.some.inj hc).le
    · exact (chunkStart_lt hlt hnext hc).le

/-- Chunks begin inside the file. -/
theorem page_le_alignUp (h : FileOrder fileSize srt) {p : ℕ × ℤ} (hp : p ∈ bounds srt) :
    p.1 ≤ alignUp fileSize := by
  rcases exists_page_of_mem_bounds h hp with hzero | ⟨u, hu, hup⟩
  · rw [hzero]
    exact Nat.zero_le _
  · rw [← hup]
    calc u.page ≤ u.start := alignDown_le _
      _ ≤ u.stop := (segment_lt h hu).le
      _ ≤ fileSize := segment_stop_le h hu
      _ ≤ alignUp fileSize := le_alignUp _

theorem chunkStart_le_chunkEnd (h : FileOrder fileSize srt) {p : ℕ}
    (hc : chunkStart srt c = some p) : p ≤ chunkEnd fileSize srt c := by
  unfold chunkEnd
  cases hnext : chunkStart srt (c + 1) with
  | none =>
    obtain ⟨x, hx, rfl⟩ := Option.map_eq_some_iff.1 hc
    exact page_le_alignUp h (List.mem_of_getElem? hx)
  | some n => exact (chunkStart_lt (Nat.lt_succ_self c) hc hnext).le

variable {a : BoundaryArrays}

theorem eq_some_iff_start {o o' : Option ℕ} {p : ℕ} (h : o.map (chunkStart srt) = o'.map some)
    (hc : chunkStart srt c = some p) : o = some c ↔ o' = some p := by
  cases o with
  | none =>
    cases o' with
    | none => simp
    | some q => cases h
  | some b =>
    cases o' with
    | none => cases h
    | some q =>
      have hb : chunkStart srt b = some q := Option.some.inj h
      constructor
      · rintro ⟨⟩
        rw [hb] at hc
        exact hc
      · rintro ⟨⟩
        rw [chunkStart_inj hb hc]

/-- Every layer with a tensor is counted. -/
def Inventory.Counted (inv : Inventory) (srt : List TensorEnt) : Prop :=
  ∀ t ∈ srt, 0 ≤ t.group → t.group < inv.nLayers

/-- Whether a chunk is signalled for a group depends on the page in which it begins. -/
theorem signals_iff {inv : Inventory} (h : FileOrder fileSize srt)
    (hbuild : inv.FromBounds fileSize srt) (hcount : inv.Counted srt) (ht : t ∈ srt) {p : ℕ}
    (hc : chunkStart srt c = some p) :
    inv.Signals t.group c ↔ Served (segments srt) t.group p := by
  obtain ⟨hgroup, -, hembd, hnorm, hout⟩ := hbuild
  have hembd' : inv.chunkEmbd.map (chunkStart srt) =
      (lastOpener (segments srt) GRP_EMBD).map some := by
    rw [hembd]
    exact lastOfGroup_start h (by decide)
  unfold Inventory.Signals Served
  split_ifs with hlayer he hn ho
  · -- a layer: its chunks are listed, up to the limit
    have hL : t.group.toNat < inv.nLayers := by
      have := hcount t ht hlayer
      omega
    have hne : t.group ≠ GRP_HEADER := by
      rintro heq
      rw [heq] at hlayer
      exact absurd hlayer (by decide)
    have hchunks : inv.layerChunks t.group.toNat =
        (labelled srt t.group).take MAX_CHUNKS_PER_LAYER := by
      rw [Inventory.layerChunks, if_pos hL, Inventory.nChunks, hgroup, List.length_map,
        Int.toNat_of_nonneg hlayer]
      rfl
    -- chunk by chunk, where the openers of the layer start
    have hstarts : ((labelled srt t.group).take MAX_CHUNKS_PER_LAYER).map (chunkStart srt) =
        ((openers (segments srt) t.group).take MAX_CHUNKS_PER_LAYER).map some := by
      rw [List.map_take, map_chunkStart_labelled h hne, List.map_take]
    rw [hchunks]
    constructor
    · intro hmem
      have himage := List.mem_map_of_mem (f := chunkStart srt) hmem
      rw [hstarts, hc] at himage
      obtain ⟨q, hq, hqp⟩ := List.mem_map.1 himage
      cases hqp
      exact hq
    · intro hmem
      have himage := List.mem_map_of_mem (f := some) hmem
      rw [← hstarts] at himage
      obtain ⟨b, hb, hbp⟩ := List.mem_map.1 himage
      rwa [← chunkStart_inj hbp hc]
  · exact eq_some_iff_start hembd' hc
  · refine eq_some_iff_start ?_ hc
    rw [hnorm, Option.map_or, Option.map_or, hembd', lastOfGroup_start h (by decide)]
  · refine eq_some_iff_start ?_ hc
    rw [hout, Option.map_or, Option.map_or, hembd', lastOfGroup_start h (by decide)]
  · exact Iff.rfl

/-! ## Coverage -/

/-- The chunk in which a run begins. -/
theorem exists_chunk {inv : Inventory} (h : FileOrder fileSize srt)
    (hbuild : inv.FromBounds fileSize srt) (hr : r ∈ segments srt) :
    ∃ c sp, inv.specs[c]? = some sp ∧ chunkStart srt c = some r.page ∧ sp.fileOff = r.page ∧
      r.start < sp.fileOff + sp.len := by
  obtain ⟨g, hg⟩ := page_mem_bounds h hr
  obtain ⟨c, hc⟩ := List.getElem?_of_mem hg
  have hstart : chunkStart srt c = some r.page := by rw [chunkStart, hc]; rfl
  have hspec := hbuild.specs c
  rw [hstart] at hspec
  obtain ⟨sp, hsp, heq⟩ := Option.map_eq_some_iff.1 hspec
  obtain ⟨hoff, hlen⟩ := Prod.mk.inj heq
  have hend := start_lt_chunkEnd h hr hstart
  refine ⟨c, sp, hsp, hstart, hoff, ?_⟩
  omega

/-- A run that opens a page before the end of an earlier run follows it directly, so it
belongs to another group. -/
theorem group_ne_of_opens {u : Segment} (h : FileOrder fileSize srt) (hr : r ∈ segments srt)
    (hop : Opens (segments srt) u) (hpage : r.page < u.page) (hstop : u.page < r.stop) :
    u.group ≠ r.group := by
  obtain ⟨i, hi, rfl⟩ := List.getElem_of_mem hr
  obtain ⟨-, j, hj, hju, hbefore⟩ := List.find?_eq_some_iff_getElem.1 hop
  have hsorted := List.pairwise_iff_getElem.1 (segments_start_lt h)
  have hij : i < j := by
    by_contra hle
    rcases (Nat.le_of_not_lt hle).eq_or_lt with rfl | hlt
    · rw [hju] at hpage
      exact lt_irrefl _ hpage
    · have hlt' := page_mono (hsorted j i hj hi hlt).le
      rw [hju] at hlt'
      omega
  rcases (Nat.succ_le_of_lt hij).eq_or_lt with rfl | hnext
  · -- the run directly behind
    rw [← hju]
    exact (List.isChain_iff_getElem.1 (segments_ne srt) i hj).symm
  · -- a run between them would begin in the same page, before `u`
    have hmid : i + 1 < (segments srt).length := by omega
    have hstart := List.pairwise_iff_getElem.1 (segments_pairwise h) i (i + 1) hi hmid (by omega)
    have hle := page_mono (hsorted (i + 1) j hmid hj hnext).le
    rw [hju] at hle
    have hge : ¬ (segments srt)[i + 1].page < u.page := by
      intro hlt
      have hadd := alignDown_add_le hlt
      have hin := lt_alignDown_add (segments srt)[i + 1].start
      unfold Segment.page at hstop
      omega
    have hne : (segments srt)[i + 1].page ≠ u.page := by simpa using hbefore (i + 1) hnext
    exact absurd (le_antisymm hle (Nat.le_of_not_lt hge)) hne

/-- A run that begins behind another one begins behind its end. -/
theorem stop_le_of_start_lt {u : Segment} (h : FileOrder fileSize srt) (hr : r ∈ segments srt)
    (hu : u ∈ segments srt) (hlt : r.start < u.start) : r.stop ≤ u.start := by
  obtain ⟨i, hi, rfl⟩ := List.getElem_of_mem hr
  obtain ⟨j, hj, rfl⟩ := List.getElem_of_mem hu
  have hij : i < j := by
    by_contra hle
    rcases (Nat.le_of_not_lt hle).eq_or_lt with rfl | hji
    · exact lt_irrefl _ hlt
    · exact absurd (List.pairwise_iff_getElem.1 (segments_start_lt h) j i hj hi hji)
        (Nat.lt_asymm hlt)
  exact List.pairwise_iff_getElem.1 (segments_pairwise h) i j hi hj hij

section

variable {inv : Inventory}

/-- A layer whose bytes are signalled has a list. -/
theorem Inventory.Covers.counted (h : FileOrder fileSize srt) (hcov : inv.Covers srt) :
    inv.Counted srt := by
  intro t ht hlayer
  have hsize := h.size_pos t ht
  obtain ⟨sp, hsp, hstart, hend⟩ := hcov.held t ht (Or.inl hlayer) t.fileOff le_rfl (by omega)
  obtain ⟨c, hc⟩ := List.getElem?_of_mem hsp
  have hsig := hcov.signalled t ht c sp hc ⟨by omega, hend⟩
  rw [Inventory.Signals, if_pos hlayer] at hsig
  have hlt := (mem_layerChunks_group hsig).2
  omega

/-- The first tensor of a run reaches into the chunk that begins in the run's page. -/
theorem Inventory.Covers.served (h : FileOrder fileSize srt)
    (hbuild : inv.FromBounds fileSize srt) (hcount : inv.Counted srt) (hcov : inv.Covers srt)
    (hr : r ∈ segments srt) : Served (segments srt) r.group r.page := by
  obtain ⟨⟨t, ht, htstart, htg⟩, -⟩ := segments_ends hr
  obtain ⟨c, sp, hsp, hc, hoff, hend⟩ := exists_chunk h hbuild hr
  have hsize := h.size_pos t ht
  have hle : r.page ≤ r.start := alignDown_le r.start
  have hover : sp.Overlaps t := ⟨by omega, by omega⟩
  rw [← htg]
  exact (signals_iff h hbuild hcount ht hc).1 (hcov.signalled t ht c sp hsp hover)

/-- The last tensor of a run reaches into a chunk that begins before the run's end. -/
theorem Inventory.Covers.served_later {u : Segment} (h : FileOrder fileSize srt)
    (hbuild : inv.FromBounds fileSize srt) (hcount : inv.Counted srt) (hcov : inv.Covers srt)
    (hr : r ∈ segments srt) (hu : u ∈ segments srt) (hlt : r.start < u.start)
    (hstop : u.page < r.stop) : Served (segments srt) r.group u.page := by
  obtain ⟨-, t, ht, htstop, htg⟩ := segments_ends hr
  obtain ⟨c, sp, hsp, hc, hoff, hend⟩ := exists_chunk h hbuild hu
  have hsize := h.size_pos t ht
  have hbehind := stop_le_of_start_lt h hr hu hlt
  have hover : sp.Overlaps t := ⟨by omega, by omega⟩
  rw [← htg]
  exact (signals_iff h hbuild hcount ht hc).1 (hcov.signalled t ht c sp hsp hover)

/-- No group is served by the chunk of its run's page and by one that begins inside the run. -/
theorem not_served_twice {u : Segment} (h : FileOrder fileSize srt) (hr : r ∈ segments srt)
    (hsig : Signalled r.group) (hfirst : Served (segments srt) r.group r.page)
    (hlater : Served (segments srt) r.group u.page) (hpage : r.page < u.page) :
    r.stop ≤ u.page := by
  by_contra hstop
  unfold Served at hlater hfirst
  split_ifs at hlater hfirst with hlayer he hn ho
  · obtain ⟨v, hv, hvu⟩ := List.mem_map.1 (List.mem_of_mem_take hlater)
    have hvg := (List.mem_filter.1 hv).2
    simp only [decide_eq_true_eq] at hvg
    rw [← hvu] at hpage hstop
    exact group_ne_of_opens h hr hvg.2 hpage (Nat.lt_of_not_le hstop) hvg.1
  · exact hpage.ne (Option.some.inj (hfirst.symm.trans hlater))
  · exact hpage.ne (Option.some.inj (hfirst.symm.trans hlater))
  · exact hpage.ne (Option.some.inj (hfirst.symm.trans hlater))
  · rcases hsig with hsig | hsig | hsig | hsig
    · exact hlayer hsig
    · exact he hsig
    · exact hn hsig
    · exact ho hsig

/-- When the runs do not share pages in the wrong way, the only chunk that meets a tensor
of a run is the one that begins in the run's page. -/
theorem Separable.chunkStart_eq (h : FileOrder fileSize srt)
    (hbuild : inv.FromBounds fileSize srt) (hsep : Separable srt)
    (hr : r ∈ segments srt) (hsig : Signalled r.group) {p : ℕ} (hc : chunkStart srt c = some p)
    (hbefore : p < r.stop) (hbehind : r.start < chunkEnd fileSize srt c) : p = r.page := by
  have hle : r.page ≤ r.start := alignDown_le r.start
  apply le_antisymm
  · -- a chunk that begins later is behind the run
    by_contra hgt
    obtain ⟨x, hx, hxp⟩ := Option.map_eq_some_iff.1 hc
    rcases exists_page_of_mem_bounds h (List.mem_of_getElem? hx) with hzero | ⟨u, hu, hup⟩
    · omega
    · have hlt : r.start < u.start := by
        by_contra hge
        have hmono := page_mono (Nat.le_of_not_lt hge)
        omega
      rcases hsep.apart r hr hsig u hu hlt with heq | hstop
      · omega
      · omega
  · -- a chunk that begins earlier ends before the run's page
    by_contra hlt
    obtain ⟨d, -, -, hd, -, -⟩ := exists_chunk h hbuild hr
    rcases lt_trichotomy c d with hcd | rfl | hdc
    · have hend : chunkEnd fileSize srt c ≤ r.page := chunkEnd_le hcd hd
      omega
    · have heq := Option.some.inj (hc.symm.trans hd)
      omega
    · have hgt := chunkStart_lt hdc hd hc
      omega

/-- Without a wrap, the bytes of a layer or role are signalled for it exactly when its runs do not
share pages in the wrong way. -/
theorem Inventory.FromBounds.covers (hbuild : inv.FromBounds fileSize srt)
    (h : FileOrder fileSize srt) (hfill : TableOk fileSize inv) (hcount : inv.Counted srt) :
    inv.Covers srt ↔ Separable srt := by
  constructor
  · intro hcov
    refine ⟨fun r hr => hcov.served h hbuild hcount hr, fun r hr hsig u hu hlt => ?_⟩
    rcases (page_mono hlt.le).eq_or_lt with heq | hpage
    · exact Or.inl heq.symm
    · by_cases hstop : u.page < r.stop
      · exact Or.inr (not_served_twice h hr hsig (hcov.served h hbuild hcount hr)
          (hcov.served_later h hbuild hcount hr hu hlt hstop) hpage)
      · exact Or.inr (Nat.le_of_not_lt hstop)
  · intro hsep
    refine ⟨fun t ht _ off _ hoff => ?_, fun t ht c sp hsp hover => ?_⟩
    · -- the chunks tile the region
      have hin : off < alignUp fileSize := (hoff.trans_le (h.inside t ht)).trans_le (le_alignUp _)
      obtain ⟨c, hc⟩ := (hfill.tiled.exactLookup.tiles off).2 hin
      have hmem : inv.specs[c] ∈ inv.specs := List.getElem_mem _
      have hident := (buildChunkTableExplicit_identity hfill.accepted) _ hmem
      unfold Contains at hc
      exact ⟨_, hmem, by omega, by omega⟩
    · by_cases hsig : Signalled t.group
      · obtain ⟨r, hr, hrg, hstart, hstop⟩ := exists_segment h ht
        have hspec := hbuild.specs c
        rw [hsp, Option.map_some] at hspec
        obtain ⟨p, hc, hp⟩ := Option.map_eq_some_iff.1 hspec.symm
        obtain ⟨hoff, hlen⟩ := Prod.mk.inj hp
        obtain ⟨hover₁, hover₂⟩ := hover
        have hend := chunkStart_le_chunkEnd h hc
        have hpage : p = r.page :=
          hsep.chunkStart_eq h hbuild hr (hrg ▸ hsig) hc (by omega) (by omega)
        rw [hpage] at hc
        have hserved := hsep.served r hr
        rw [hrg] at hserved
        exact (signals_iff h hbuild hcount ht hc).2 hserved
      · unfold Signalled at hsig
        push Not at hsig
        obtain ⟨hlayer, he, hn, ho⟩ := hsig
        unfold Inventory.Signals
        rw [if_neg (by omega), if_neg he, if_neg hn, if_neg ho]
        trivial

end

end

end Residctl
