import Airdcpp.Queue.QueueItem

/-!
# `Queue/FinishedSegments` — what `addFinishedSegment` does to the finished set

`QueueItem::addFinishedSegment` inserts a segment and then walks the set once, replacing any
two neighbours that touch by one segment from the first one's start to the *second one's end*.
On a canonical set at most two such merges can happen — with the neighbour below, with the
neighbour above — and `Merged` lists the four outcomes, each with the condition that selects
it, the resulting set and the bytes reported to the bundle. `addFinishedSegment_merged` is the
only statement about the loop the rest of the development uses.

Because the end always comes from the second of the two, the bytes of a segment that reaches
past the end of a neighbour it contains, or of a neighbour that reaches past the end of a
segment inside it, are dropped. `NestsIn` says when neither is the case, and
`addFinishedSegment_exact_iff` that this is exactly when the covered bytes come out as the
union.
-/

namespace Airdcpp

open Lib

namespace QueueItem

open SegmentSet

/-! ## The loop -/

/-- The walk leaves segments alone that do not touch the one before them. -/
theorem consolidate_skip {s : Segment} {done : SegmentSet} (added : Option Int)
    (before mid rest : List Segment) {p : Segment} (hd : done.toList = before ++ p :: (mid ++ rest))
    (hgap : (p :: mid).Pairwise fun i j => i.getEnd < j.start) :
    consolidate s done added (mid ++ rest) = consolidate s done added rest := by
  induction mid generalizing before p with
  | nil => rfl
  | cons i mid ih =>
    obtain ⟨hp, hmid⟩ := List.pairwise_cons.mp hgap
    have hpi : ¬ p.getEnd ≥ i.start := not_le.mpr (hp i (by simp))
    rw [List.cons_append, consolidate, OrderedSet.pred?_eq hd]
    simp only [if_neg hpi]
    exact ih (before ++ [p]) (by simp [hd]) hmid

/-- One merge: the two neighbours are replaced by a segment at their place. -/
theorem consolidate_merge {s : Segment} {done : SegmentSet} (added : Option Int)
    {before iter : List Segment} {p i : Segment} (hd : done.toList = before ++ p :: i :: iter)
    (htouch : i.start ≤ p.getEnd) (hlow : ∀ x ∈ before, x.start < p.start)
    (hhigh : ∀ x ∈ iter, p.start < x.start) :
    ∃ done' : SegmentSet, done'.toList = before ++ Segment.between p.start i.getEnd :: iter ∧
      consolidate s done added (i :: iter) = consolidate s done'
        (added <|> some ((i.getEnd - p.start) - (if p = s then i.size else p.size))) iter := by
  refine ⟨((done.erase p).erase i).insert (Segment.between p.start i.getEnd), ?_, ?_⟩
  · have h₁ : ((done.erase p).erase i).toList = before ++ iter :=
      OrderedSet.toList_erase (OrderedSet.toList_erase hd)
    exact OrderedSet.toList_insert h₁ (fun x hx => Segment.lt_of_start_lt (hlow x hx))
      fun x hx => Segment.lt_of_start_lt (hhigh x hx)
  · rw [consolidate, OrderedSet.pred?_eq hd]
    simp only [ge_iff_le, if_pos htouch, Segment.between_size]

/-! ## The four outcomes -/

/-- `Merged s below above done bytes`: adding `s` to the set `below ++ above`, whose parts are
    below and above it, leaves the set `done` and reports `bytes`. -/
inductive Merged (s : Segment) : List Segment → List Segment → List Segment → Int → Prop
  /-- It touches nothing. -/
  | apart {below above : List Segment} (hl : ∀ l ∈ below, l.getEnd < s.start)
      (hr : ∀ r ∈ above, s.getEnd < r.start) :
      Merged s below above (below ++ s :: above) s.size
  /-- It touches its neighbour below only. -/
  | left {below above : List Segment} {l : Segment} (hl : s.start ≤ l.getEnd)
      (hr : ∀ r ∈ above, s.getEnd < r.start) :
      Merged s (below ++ [l]) above (below ++ Segment.between l.start s.getEnd :: above)
        (s.getEnd - l.getEnd)
  /-- It touches its neighbour above only. -/
  | right {below above : List Segment} {r : Segment} (hl : ∀ l ∈ below, l.getEnd < s.start)
      (hr : r.start ≤ s.getEnd) :
      Merged s below (r :: above) (below ++ Segment.between s.start r.getEnd :: above)
        (r.start - s.start)
  /-- It touches both, and only the first merge is reported. -/
  | both {below above : List Segment} {l r : Segment} (hl : s.start ≤ l.getEnd)
      (hr : r.start ≤ s.getEnd) :
      Merged s (below ++ [l]) (r :: above) (below ++ Segment.between l.start r.getEnd :: above)
        (s.getEnd - l.getEnd)

section Consolidation

variable {s : Segment} {done : SegmentSet} (added : Option Int)

/-- Once nothing above touches the segment in hand, the walk runs to its end. -/
theorem consolidate_rest {before above : List Segment} {big : Segment}
    (hd : done.toList = before ++ big :: above) (hr : ∀ r ∈ above, big.getEnd < r.start)
    (hgap : above.Pairwise fun i j => i.getEnd < j.start) :
    consolidate s done added above = (done, added) := by
  have hskip := consolidate_skip (s := s) added before above [] (by simpa using hd)
    (List.pairwise_cons.mpr ⟨hr, hgap⟩)
  rw [List.append_nil] at hskip
  rw [hskip, consolidate]

/-- From the segment in hand on, the walk merges it with its neighbour above or not at all. -/
theorem consolidate_above {before above : List Segment} {big : Segment}
    (hd : done.toList = before ++ big :: above) (habove : IsCanonical above)
    (hlow : ∀ x ∈ before, x.start < big.start) (hhigh : ∀ x ∈ above, big.start ≤ x.start) :
    ((∀ r ∈ above, big.getEnd < r.start) ∧ consolidate s done added above = (done, added)) ∨
    ∃ r rest, above = r :: rest ∧ r.start ≤ big.getEnd ∧ ∃ done' : SegmentSet,
      done'.toList = before ++ Segment.between big.start r.getEnd :: rest ∧
      consolidate s done added above = (done',
        added <|> some ((r.getEnd - big.start) - (if big = s then r.size else big.size))) := by
  cases above with
  | nil => exact Or.inl ⟨by simp, rfl⟩
  | cons r rest =>
    obtain ⟨hpos, hrest, hgap⟩ := canonical_cons.mp habove
    by_cases htouch : r.start ≤ big.getEnd
    · refine Or.inr ⟨r, rest, rfl, htouch, ?_⟩
      obtain ⟨done', hd', heq⟩ := consolidate_merge (s := s) added hd htouch hlow
        fun x hx => lt_of_le_of_lt (hhigh r (by simp)) (lt_trans hpos (hgap x hx))
      refine ⟨done', hd', ?_⟩
      rw [heq]
      exact consolidate_rest _ hd' (by simpa using hgap) hrest.gap
    · have hall : ∀ x ∈ r :: rest, big.getEnd < x.start := by
        intro x hx
        rcases List.mem_cons.mp hx with rfl | hx
        · exact not_le.mp htouch
        · exact lt_trans (not_le.mp htouch) (lt_trans hpos (hgap x hx))
      exact Or.inl ⟨hall, consolidate_rest added hd hall habove.gap⟩

end Consolidation

theorem addFinishedSegment_eq {q : QueueItem} {s : Segment} {done : SegmentSet} {added : Option Int}
    (h : consolidate s (q.done.insert s) none (q.done.insert s).toList.tail = (done, added)) :
    q.addFinishedSegment s = ({ q with done := done }, added.getD s.size) := by
  rw [addFinishedSegment]
  simp only [h]

/-- **What adding a new segment does.** The set splits at the segment's position, and the walk
    ends in one of the four outcomes for that split. -/
theorem addFinishedSegment_merged {q : QueueItem} {s : Segment}
    (hq : IsCanonical q.done.toList) (hs : s ∉ q.done) :
    ∃ below above, q.done.toList = below ++ above ∧ (∀ l ∈ below, l < s) ∧ (∀ r ∈ above, s < r) ∧
      Merged s below above (q.addFinishedSegment s).1.done.toList (q.addFinishedSegment s).2 := by
  obtain ⟨below, above, hsplit, hbelow, habove⟩ := q.done.exists_split s hs
  refine ⟨below, above, hsplit, hbelow, habove, ?_⟩
  have hd := OrderedSet.toList_insert hsplit hbelow habove
  rw [hsplit] at hq
  obtain ⟨hcb, hca, hgap⟩ := canonical_append.mp hq
  have hsa : ∀ x ∈ above, s.start ≤ x.start := fun x hx => Segment.start_le_of_lt (habove x hx)
  rcases List.eq_nil_or_concat' below with rfl | ⟨init, l, rfl⟩
  · -- `s` is the first element, and the walk starts just after it
    have hwalk : (q.done.insert s).toList.tail = above := by rw [hd]; rfl
    rcases consolidate_above (s := s) none hd hca (by simp) hsa with
      ⟨hr, heq⟩ | ⟨r, rest, rfl, hr, done', hd', heq⟩
    · rw [addFinishedSegment_eq (hwalk ▸ heq), hd]
      exact Merged.apart (by simp) hr
    · rw [addFinishedSegment_eq (hwalk ▸ heq), hd', if_pos rfl]
      have hbytes : r.getEnd - s.start - r.size = r.start - s.start := by
        simp only [Segment.getEnd]; omega
      have hnone : ∀ l ∈ ([] : List Segment), l.getEnd < s.start := by simp
      exact hbytes ▸ Merged.right hnone hr
  · -- the walk passes the segments below and arrives at `s` behind its neighbour `l`
    obtain ⟨hci, hcl, hil⟩ := canonical_append.mp hcb
    have hlpos : l.start < l.getEnd := hcl.pos l (by simp)
    have hls : l.start ≤ s.start := Segment.start_le_of_lt (hbelow l (by simp))
    have hne : l ≠ s := (hbelow l (by simp)).ne
    have hilow : ∀ x ∈ init, x.start < l.start := fun x hx =>
      lt_trans (hci.pos x hx) (hil x hx l (by simp))
    have hlhigh : ∀ x ∈ above, l.start < x.start := fun x hx =>
      lt_trans hlpos (hgap l (by simp) x hx)
    have hwalk : consolidate s (q.done.insert s) none (q.done.insert s).toList.tail =
        consolidate s (q.done.insert s) none (s :: above) := by
      rw [hd]
      cases init with
      | nil => rfl
      | cons p init =>
        have hskip := consolidate_skip (s := s) none [] (init ++ [l]) (s :: above) (p := p)
          (by simpa using hd) (by simpa using hcb.gap)
        simpa using hskip
    have hd2 : (q.done.insert s).toList = init ++ l :: s :: above := by simpa using hd
    by_cases htouch : s.start ≤ l.getEnd
    · -- the first merge is with `l`; a second one reports nothing more
      obtain ⟨done₁, hd₁, heq₁⟩ := consolidate_merge (s := s) none hd2 htouch hilow hlhigh
      have hbytes : s.getEnd - l.start - l.size = s.getEnd - l.getEnd := by
        simp only [Segment.getEnd]; omega
      rw [if_neg hne, hbytes] at heq₁
      rcases consolidate_above (s := s) (some (s.getEnd - l.getEnd)) hd₁ hca
        (by simpa using hilow) (by simpa using fun x hx => (hlhigh x hx).le) with
        ⟨hr, heq⟩ | ⟨r, rest, rfl, hr, done', hd', heq⟩
      · rw [addFinishedSegment_eq (hwalk.trans (heq₁.trans heq)), hd₁]
        exact Merged.left htouch (by simpa using hr)
      · rw [addFinishedSegment_eq (hwalk.trans (heq₁.trans heq)), hd']
        exact Merged.both htouch (by simpa using hr)
    · -- nothing happens at `s` itself, and the walk goes on behind it
      have hsl : l.getEnd < s.start := not_le.mp htouch
      have hbelow' : ∀ x ∈ init ++ [l], x.getEnd < s.start := by
        intro x hx
        rcases List.mem_append.mp hx with hx | hx
        · exact lt_trans (hil x hx l (by simp)) (lt_trans hlpos hsl)
        · rw [List.mem_singleton.mp hx]; exact hsl
      have hskip : consolidate s (q.done.insert s) none (s :: above) =
          consolidate s (q.done.insert s) none above :=
        consolidate_skip none init [s] above hd2 (by simpa using hsl)
      rcases consolidate_above (s := s) none hd hca
        (fun x hx => lt_trans (hcb.pos x hx) (hbelow' x hx)) hsa with
        ⟨hr, heq⟩ | ⟨r, rest, rfl, hr, done', hd', heq⟩
      · rw [addFinishedSegment_eq (hwalk.trans (hskip.trans heq)), hd]
        exact Merged.apart hbelow' hr
      · rw [addFinishedSegment_eq (hwalk.trans (hskip.trans heq)), hd', if_pos rfl]
        have hbytes : r.getEnd - s.start - r.size = r.start - s.start := by
          simp only [Segment.getEnd]; omega
        exact hbytes ▸ Merged.right hbelow' hr

/-- A segment that is already there is left as it is, and counted again. -/
theorem addFinishedSegment_of_mem {q : QueueItem} {s : Segment}
    (hq : IsCanonical q.done.toList) (hs : s ∈ q.done) :
    q.addFinishedSegment s = (q, s.size) := by
  have hins : q.done.insert s = q.done := OrderedSet.insert_of_mem hs
  have hwalk : consolidate s q.done none q.done.toList.tail = (q.done, none) := by
    rcases hdone : q.done.toList with _ | ⟨p, rest⟩
    · rfl
    · obtain ⟨_, hcr, hgap⟩ := canonical_cons.mp (hdone ▸ hq)
      have hd : q.done.toList = [] ++ p :: rest := hdone
      rw [List.tail_cons]
      exact consolidate_rest none hd hgap hcr.gap
  have hwalk' : consolidate s (q.done.insert s) none (q.done.insert s).toList.tail =
      (q.done, none) := by rw [hins, hwalk]
  rw [addFinishedSegment_eq hwalk']
  rfl

/-! ## The covered bytes -/

/-- Both ends of `a` are strictly inside `b`. -/
def Nested (a b : Segment) : Prop := b.start < a.start ∧ a.getEnd < b.getEnd

instance (a b : Segment) : Decidable (Nested a b) := inferInstanceAs (Decidable (_ ∧ _))

/-- `s` and some finished segment nest, one way or the other. -/
def NestsIn (s : Segment) (done : List Segment) : Prop := ∃ d ∈ done, Nested d s ∨ Nested s d

instance (s : Segment) (done : List Segment) : Decidable (NestsIn s done) :=
  inferInstanceAs (Decidable (∃ d ∈ done, _))

theorem not_nested_of_apart {s d : Segment} (hs : s.start < s.getEnd) (hd : d.start < d.getEnd)
    (h : d.getEnd ≤ s.start ∨ s.getEnd ≤ d.start) : ¬ (Nested d s ∨ Nested s d) := by
  simp only [Nested]; omega

section Exactness

variable {s : Segment} {below above done : List Segment} {n : Int}

/-- Each outcome is canonical again. -/
theorem Merged.isCanonical (hm : Merged s below above done n) (hpos : 0 < s.size)
    (hc : IsCanonical (below ++ above)) (hbelow : ∀ l ∈ below, l < s)
    (habove : ∀ r ∈ above, s < r) :
    IsCanonical done := by
  have hs : s.start < s.getEnd := by simp only [Segment.getEnd]; omega
  obtain ⟨hcb, hca, hgap⟩ := canonical_append.mp hc
  cases hm with
  | apart hl hr => exact Canonical.replace [] (by simpa using hc) hs hl hr
  | @left init _ l hl hr =>
    obtain ⟨_, hcl, hil⟩ := canonical_append.mp hcb
    have hls := Segment.start_le_of_lt (hbelow l (by simp))
    refine Canonical.replace [l] (by simpa using hc) ?_ ?_ ?_
    · simp only [Segment.between_start, Segment.between_getEnd]; omega
    · exact fun i hi => hil i hi l (by simp)
    · simpa using hr
  | @right _ rest r hl hr =>
    obtain ⟨hr', _, hrest⟩ := canonical_cons.mp hca
    have hsr := Segment.start_le_of_lt (habove r (by simp))
    refine Canonical.replace [r] (by simpa using hc) ?_ ?_ ?_
    · simp only [Segment.between_start, Segment.between_getEnd]; omega
    · exact hl
    · simpa using hrest
  | @both init rest l r hl hr =>
    obtain ⟨_, hcl, hil⟩ := canonical_append.mp hcb
    obtain ⟨hr', _, hrest⟩ := canonical_cons.mp hca
    have hlpos := hcl.pos l (by simp)
    have hlr := hgap l (by simp) r (by simp)
    refine Canonical.replace [l, r] (by simpa using hc) ?_ ?_ ?_
    · simp only [Segment.between_start, Segment.between_getEnd]; omega
    · exact fun i hi => hil i hi l (by simp)
    · simpa using hrest

/-- A run of neighbours replaced by an interval with the same bytes and those of `s`: nothing
    is lost, and nothing nests. -/
theorem bytes_replace_of_eq {l r : List Segment} (mid : List Segment) {big : Segment}
    (hs : s.start < s.getEnd)
    (hc : IsCanonical (l ++ (mid ++ r)))
    (hbig : Set.Ico big.start big.getEnd = bytes mid ∪ Set.Ico s.start s.getEnd)
    (hl : ∀ i ∈ l, i.getEnd ≤ s.start) (hr : ∀ i ∈ r, s.getEnd ≤ i.start)
    (hmid : ¬ NestsIn s mid) :
    bytes (l ++ big :: r) = bytes (l ++ (mid ++ r)) ∪ Set.Ico s.start s.getEnd ↔
      ¬ NestsIn s (l ++ (mid ++ r)) := by
  refine iff_of_true ?_ ?_
  · simp only [bytes, covered_append, covered_cons, hbig]
    ext x; simp only [Set.mem_union]; tauto
  · rintro ⟨d, hd, hn⟩
    have hdpos := hc.pos d hd
    simp only [List.mem_append] at hd
    rcases hd with hd | hd | hd
    · exact not_nested_of_apart hs hdpos (Or.inl (hl d hd)) hn
    · exact hmid ⟨d, hd, hn⟩
    · exact not_nested_of_apart hs hdpos (Or.inr (hr d hd)) hn

/-- A run of neighbours replaced by an interval that leaves out one of the bytes: the union is
    missed, and something nests. -/
theorem bytes_replace_of_lost {l r : List Segment} (mid : List Segment) {big : Segment} {x : Int}
    (hx : x ∈ bytes (l ++ (mid ++ r)) ∪ Set.Ico s.start s.getEnd) (hbig : big.getEnd ≤ x)
    (hl : ∀ i ∈ l, i.getEnd ≤ x) (hr : ∀ i ∈ r, x < i.start) (hmid : NestsIn s mid) :
    bytes (l ++ big :: r) = bytes (l ++ (mid ++ r)) ∪ Set.Ico s.start s.getEnd ↔
      ¬ NestsIn s (l ++ (mid ++ r)) := by
  obtain ⟨d, hd, hn⟩ := hmid
  refine iff_of_false (fun heq => ?_) (not_not.mpr ⟨d, by simp [hd], hn⟩)
  rw [← heq, bytes, covered_append, covered_cons] at hx
  rcases hx with hx | hx | hx
  · exact notMem_covered_of_hi_le hl hx
  · exact absurd hx.2 (not_lt.mpr hbig)
  · exact notMem_covered_of_lt_lo hr hx

/-- **When an outcome covers the union.** The new end is the second segment's, so bytes are
    lost exactly when that segment ends before the one it is merged with does. -/
theorem Merged.bytes_eq_iff (hm : Merged s below above done n) (hpos : 0 < s.size)
    (hc : IsCanonical (below ++ above)) (hbelow : ∀ l ∈ below, l < s)
    (habove : ∀ r ∈ above, s < r) :
    bytes done = bytes (below ++ above) ∪ Set.Ico s.start s.getEnd ↔
      ¬ NestsIn s (below ++ above) := by
  have hs : s.start < s.getEnd := by simp only [Segment.getEnd]; omega
  obtain ⟨hcb, hca, hgap⟩ := canonical_append.mp hc
  cases hm with
  | apart hl hr =>
    exact bytes_replace_of_eq [] hs hc (by simp [bytes]) (fun i hi => (hl i hi).le)
      (fun i hi => (hr i hi).le) (by simp [NestsIn])
  | @left init _ l hl hr =>
    obtain ⟨_, hcl, hil⟩ := canonical_append.mp hcb
    have hlpos : l.start < l.getEnd := hcl.pos l (by simp)
    have hls := Segment.start_le_of_lt (hbelow l (by simp))
    have hinit : ∀ i ∈ init, i.getEnd ≤ s.start := fun i hi => (hil i hi l (by simp)).le.trans hls
    rw [List.append_assoc] at hc ⊢
    by_cases hle : l.getEnd ≤ s.getEnd
    · refine bytes_replace_of_eq [l] hs hc ?_ hinit (fun i hi => (hr i hi).le) ?_
      · rw [bytes, covered_singleton, Set.Ico_union_Ico' hl (hls.trans hs.le), min_eq_left hls,
          max_eq_right hle]
        simp
      · simp only [NestsIn, Nested, List.mem_singleton, exists_eq_left]; omega
    · -- the bytes of `l` from the end of `s` on are lost
      have hlt : s.getEnd < l.getEnd := not_le.mp hle
      refine bytes_replace_of_lost [l] (x := s.getEnd) ?_ (by simp)
        (fun i hi => (hinit i hi).trans hs.le) hr ?_
      · exact Or.inl ⟨l, by simp, hls.trans hs.le, hlt⟩
      · exact ⟨l, by simp, Or.inr
          ⟨Segment.start_lt_of_lt_of_getEnd_lt (hbelow l (by simp)) hlt, hlt⟩⟩
  | @right _ rest r hl hr =>
    obtain ⟨hrpos, _, hrest⟩ := canonical_cons.mp hca
    have hsr := Segment.start_le_of_lt (habove r (by simp))
    by_cases hle : s.getEnd ≤ r.getEnd
    · refine bytes_replace_of_eq [r] hs hc ?_ (fun i hi => (hl i hi).le)
        (fun i hi => hle.trans (hrest i hi).le) ?_
      · rw [bytes, covered_singleton, Set.union_comm, Set.Ico_union_Ico' hr (hsr.trans hrpos.le),
          min_eq_left hsr, max_eq_right hle]
        simp
      · simp only [NestsIn, Nested, List.mem_singleton, exists_eq_left]; omega
    · -- the bytes of `s` from the end of `r` on are lost
      have hlt : r.getEnd < s.getEnd := not_le.mp hle
      refine bytes_replace_of_lost [r] (x := r.getEnd) ?_ (by simp)
        (fun i hi => (hl i hi).le.trans (hsr.trans hrpos.le)) hrest ?_
      · exact Or.inr ⟨hsr.trans hrpos.le, hlt⟩
      · exact ⟨r, by simp, Or.inl
          ⟨Segment.start_lt_of_lt_of_getEnd_lt (habove r (by simp)) hlt, hlt⟩⟩
  | @both init rest l r hl hr =>
    obtain ⟨_, hcl, hil⟩ := canonical_append.mp hcb
    obtain ⟨hrpos, _, hrest⟩ := canonical_cons.mp hca
    have hls := Segment.start_le_of_lt (hbelow l (by simp))
    have hsr := Segment.start_le_of_lt (habove r (by simp))
    have hlr : l.getEnd < r.start := hgap l (by simp) r (by simp)
    have hinit : ∀ i ∈ init, i.getEnd ≤ s.start := fun i hi => (hil i hi l (by simp)).le.trans hls
    rw [List.append_assoc] at hc ⊢
    by_cases hle : s.getEnd ≤ r.getEnd
    · refine bytes_replace_of_eq [l, r] hs hc ?_ hinit
        (fun i hi => hle.trans (hrest i hi).le) ?_
      · ext x
        simp only [bytes, covered_cons, covered_nil, Set.mem_union, Set.mem_Ico,
          Segment.between_start, Segment.between_getEnd, Set.mem_empty_iff_false, or_false]
        omega
      · simp only [NestsIn, Nested, List.mem_cons, List.not_mem_nil, or_false,
          exists_eq_or_imp, exists_eq_left]
        omega
    · have hlt : r.getEnd < s.getEnd := not_le.mp hle
      refine bytes_replace_of_lost [l, r] (x := r.getEnd) ?_ (by simp)
        (fun i hi => (hinit i hi).trans (hsr.trans hrpos.le)) hrest ?_
      · exact Or.inr ⟨hsr.trans hrpos.le, hlt⟩
      · exact ⟨r, by simp, Or.inl
          ⟨Segment.start_lt_of_lt_of_getEnd_lt (habove r (by simp)) hlt, hlt⟩⟩

/-- Every outcome stays inside the file. -/
theorem Merged.inside {size : Int} (hm : Merged s below above done n)
    (hin : Inside size (below ++ above)) (hs : 0 ≤ s.start ∧ s.getEnd ≤ size) :
    Inside size done := by
  intro d hd
  cases hm with
  | apart =>
    simp only [List.mem_append, List.mem_cons] at hd
    rcases hd with hd | rfl | hd
    · exact hin d (by simp [hd])
    · exact hs
    · exact hin d (by simp [hd])
  | @left init _ l =>
    simp only [List.mem_append, List.mem_cons] at hd
    rcases hd with hd | rfl | hd
    · exact hin d (by simp [hd])
    · exact ⟨(hin l (by simp)).1, by simpa using hs.2⟩
    · exact hin d (by simp [hd])
  | @right _ rest r =>
    simp only [List.mem_append, List.mem_cons] at hd
    rcases hd with hd | rfl | hd
    · exact hin d (by simp [hd])
    · exact ⟨hs.1, by simpa using (hin r (by simp)).2⟩
    · exact hin d (by simp [hd])
  | @both init rest l r =>
    simp only [List.mem_append, List.mem_cons] at hd
    rcases hd with hd | rfl | hd
    · exact hin d (by simp [hd])
    · exact ⟨(hin l (by simp)).1, by simpa using (hin r (by simp)).2⟩
    · exact hin d (by simp [hd])

end Exactness

/-! ## The operation on an item -/

section Item

variable {q : QueueItem} {s : Segment}

/-- **Adding a segment keeps the set canonical**, whatever it overlaps. -/
theorem addFinishedSegment_isCanonical (hq : IsCanonical q.done.toList) (hpos : 0 < s.size) :
    IsCanonical (q.addFinishedSegment s).1.done.toList := by
  by_cases hs : s ∈ q.done
  · rw [addFinishedSegment_of_mem hq hs]; exact hq
  · obtain ⟨below, above, hsplit, hbelow, habove, hm⟩ := addFinishedSegment_merged hq hs
    exact hm.isCanonical hpos (hsplit ▸ hq) hbelow habove

/-- Adding a segment of the file keeps the set inside the file. -/
theorem addFinishedSegment_inside (hq : IsCanonical q.done.toList)
    (hin : Inside q.size q.done.toList) (hs : 0 ≤ s.start ∧ s.getEnd ≤ q.size) :
    Inside q.size (q.addFinishedSegment s).1.done.toList := by
  by_cases hmem : s ∈ q.done
  · rw [addFinishedSegment_of_mem hq hmem]; exact hin
  · obtain ⟨below, above, hsplit, _, _, hm⟩ := addFinishedSegment_merged hq hmem
    exact hm.inside (hsplit ▸ hin) hs

/-- A canonical set inside the file is complete exactly when `segmentsDone` says so. -/
theorem segmentsDone_iff (hq : IsCanonical q.done.toList) (hin : Inside q.size q.done.toList)
    (hsize : 0 < q.size) : q.segmentsDone ↔ Set.Ico 0 q.size ⊆ bytes q.done.toList := by
  rw [bytes, hq.covers_iff hsize hin, segmentsDone, beq_iff_eq]
  constructor
  · intro h
    exact ⟨⟨0, q.size⟩, h, rfl, by simp [Segment.getEnd]⟩
  · rintro ⟨i, h, h0, hend⟩
    rw [h, ← Segment.between_self i, h0, hend, Segment.between, sub_zero]

/-- Adding `s` adds its bytes, no more and no fewer, and leaves a canonical set, in which
    `segmentsDone` tests whether the whole file is there. -/
def AddsExactly (q : QueueItem) (s : Segment) : Prop :=
  let q' := (q.addFinishedSegment s).1
  bytes q'.done.toList = bytes q.done.toList ∪ Set.Ico s.start s.getEnd ∧
    IsCanonical q'.done.toList ∧
    (Inside q.size q.done.toList → (q'.segmentsDone ↔ Set.Ico 0 q.size ⊆ bytes q'.done.toList))

/-- **`addFinishedSegment` is a union exactly when nothing nests.** A segment strictly inside a
    finished one cuts it short, and one with a finished segment strictly inside it loses its
    own end; in every other position the union is exact. -/
theorem addFinishedSegment_exact_iff (hq : IsCanonical q.done.toList) (hpos : 0 < s.size)
    (hs : 0 ≤ s.start ∧ s.getEnd ≤ q.size) :
    AddsExactly q s ↔ ¬ NestsIn s q.done.toList := by
  have hspos : s.start < s.getEnd := by simp only [Segment.getEnd]; omega
  have hcanon := addFinishedSegment_isCanonical hq hpos
  have hdone : Inside q.size q.done.toList → ((q.addFinishedSegment s).1.segmentsDone ↔
      Set.Ico 0 q.size ⊆ bytes (q.addFinishedSegment s).1.done.toList) := fun hin =>
    segmentsDone_iff (q := (q.addFinishedSegment s).1) hcanon
      (addFinishedSegment_inside hq hin hs) (by show 0 < q.size; omega)
  have hunion : bytes (q.addFinishedSegment s).1.done.toList =
      bytes q.done.toList ∪ Set.Ico s.start s.getEnd ↔ ¬ NestsIn s q.done.toList := by
    by_cases hmem : s ∈ q.done
    · rw [addFinishedSegment_of_mem hq hmem]
      have hsub : Set.Ico s.start s.getEnd ⊆ bytes q.done.toList := fun x hx => ⟨s, hmem, hx⟩
      refine iff_of_true (Set.union_eq_left.mpr hsub).symm ?_
      rintro ⟨d, hd, hn⟩
      rcases eq_or_ne d s with rfl | hne
      · simp only [Nested] at hn; omega
      · exact not_nested_of_apart hspos (hq.pos d hd)
          ((hq.apart hd hmem hne).imp le_of_lt le_of_lt) hn
    · obtain ⟨below, above, hsplit, hbelow, habove, hm⟩ := addFinishedSegment_merged hq hmem
      rw [hsplit]
      exact hm.bytes_eq_iff hpos (hsplit ▸ hq) hbelow habove
  rw [AddsExactly]
  exact ⟨fun h => hunion.mp h.1, fun h => ⟨hunion.mpr h, hcanon, hdone⟩⟩

end Item

/-- A ten-byte file with one finished segment. -/
def tenBytes (done : Segment) : QueueItem :=
  { sample 10 with done := OrderedSet.empty.insert done }

theorem tenBytes_isCanonical {d : Segment} (h : 0 < d.size) :
    IsCanonical (tenBytes d).done.toList :=
  canonical_cons.mpr ⟨by simp only [Segment.getEnd]; omega, Canonical.nil, by simp⟩

/-- Bytes 4 and 5 are there and all ten arrive: only the first six are recorded. -/
theorem addFinishedSegment_loses_bytes :
    ¬ ∀ q s, IsCanonical q.done.toList → 0 < s.size → 0 ≤ s.start ∧ s.getEnd ≤ q.size →
      AddsExactly q s := by
  intro h
  have hex := (h (tenBytes ⟨4, 2⟩) ⟨0, 10⟩ (tenBytes_isCanonical (by decide)) (by decide)
    (by decide)).1
  have hdone : ((tenBytes ⟨4, 2⟩).addFinishedSegment ⟨0, 10⟩).1.done.toList = [⟨0, 6⟩] := by decide
  have h8 : (8 : Int) ∈ bytes [⟨0, 6⟩] := by
    rw [← hdone, hex]; exact Or.inr ⟨by decide, by decide⟩
  simp [bytes, covered, Segment.getEnd] at h8

/-- A segment that overlaps the end of a finished one. -/
theorem addFinishedSegment_exact_overlap : AddsExactly (tenBytes ⟨4, 2⟩) ⟨5, 5⟩ :=
  (addFinishedSegment_exact_iff (tenBytes_isCanonical (by decide)) (by decide) (by decide)).mpr
    (by decide)

end QueueItem

end Airdcpp
