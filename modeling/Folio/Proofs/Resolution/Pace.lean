import Folio.Proofs.Resolution.Counting
import Folio.Proofs.Resolution.Outlined

/-!
# Claiming counts as the tally does

Where ids are counted in a frame, slots are claimed in the range that is in use there. As long as
every such range stands where the tally says (`Layout.Paced`), a visit claims the slot with the id
that it is counted under, and afterwards the ranges stand where the tally says then
(`Resolution.Visited.paced`).

This is about the document of one walk, and only as long as nobody hands over slots to it. Then its
ranges grow, and no other document claims in them before its walk is done.
-/

namespace Folio

open Resolution

theorem Tally.put_of_not {T : Tally} {f g : FrameId} {typ t : String} (h : ¬(g = f ∧ t = typ))
    (ids : Ordinals) : T.put f typ ids g t = T g t := if_neg h

namespace Layout

variable {l l' : Layout} {i : RangeId} {typ typ' : String} {outer outer' : List Nat}
  {count count' : Nat}

theorem Growing.typ_eq (h : l.Growing i typ outer count) (h' : l.Growing i typ' outer' count') :
    typ = typ' := by
  obtain ⟨r, hr, -, rfl, -⟩ := h
  obtain ⟨r', hr', -, rfl, -⟩ := h'
  cases hr.symm.trans hr'
  rfl

/-- The ranges in which some frames count stand where the tally says, and no two of the frames count
in the same range. -/
structure Paced (P : FrameId → Prop) (ranges : FrameId → String → Option RangeId) (l : Layout)
    (T : Tally) : Prop where
  growing : ∀ f typ i, P f → ranges f typ = some i →
    l.Growing i typ (T f typ).outer (T f typ).count
  inj : ∀ f g typ i, P f → P g → ranges f typ = some i → ranges g typ = some i → f = g

namespace Paced

variable {P : FrameId → Prop} {ranges ranges' : FrameId → String → Option RangeId} {T : Tally}
  {owner inner : FrameId} {below : RangeId}

/-- A frame counts on when the next slot of its range is claimed. -/
theorem advance (h : l.Paced P ranges T) (ho : P owner) (hi : ranges owner typ = some i)
    (hb : l.Beside l' i)
    (hg : l'.Growing i typ (T owner typ).outer ((T owner typ).count + 1)) :
    l'.Paced P ranges (T.advance (some owner) typ) where
  growing f t j hf hj := by
    by_cases hself : f = owner ∧ t = typ
    · obtain ⟨rfl, rfl⟩ := hself
      cases hi.symm.trans hj
      have hput : T.advance (some f) t f t = (T f t).next := if_pos ⟨rfl, rfl⟩
      rw [hput]
      exact hg
    · have hgrow := h.growing f t j hf hj
      have hne : j ≠ i := by
        rintro rfl
        obtain rfl : t = typ := hgrow.typ_eq (h.growing owner typ j ho hi)
        exact hself ⟨h.inj f owner t j hf ho hj hi, rfl⟩
      have hput : T.advance (some owner) typ f t = T f t := Tally.put_of_not hself _
      rw [hput]
      exact hb.growing hne hgrow
  inj := h.inj

/-- A frame inside starts to count in a range that no frame has counted in. -/
theorem enter (h : l.Paced P ranges T) (hg : l.Growing below typ outer 0)
    (hfresh : ∀ f t, P f → ranges f t ≠ some below)
    (hr : ∀ f t j, ranges' f t = some j →
      f = inner ∧ t = typ ∧ j = below ∨ f ≠ inner ∧ ranges f t = some j) :
    l.Paced P ranges' (T.put inner typ ⟨outer, 0⟩) where
  growing f t j hf hj := by
    rcases hr f t j hj with ⟨rfl, rfl, rfl⟩ | ⟨hne, hj⟩
    · rw [show T.put f t ⟨outer, 0⟩ f t = ⟨outer, 0⟩ from if_pos ⟨rfl, rfl⟩]
      exact hg
    · rw [T.put_of_ne hne]
      exact h.growing f t j hf hj
  inj f g t j hf hg' hj hj' := by
    rcases hr f t j hj with ⟨rfl, -, rfl⟩ | ⟨-, hj⟩ <;>
      rcases hr g t _ hj' with ⟨rfl, -, hbelow⟩ | ⟨-, hj'⟩
    · rfl
    · exact (hfresh g t hg' hj').elim
    · exact (hfresh f t hf (hbelow ▸ hj)).elim
    · exact h.inj f g t j hf hg' hj hj'

theorem congr (h : l.Paced P ranges T)
    (hr : ∀ f t, P f → ranges' f t = ranges f t) : l.Paced P ranges' T where
  growing f t j hf hj := h.growing f t j hf (hr f t hf ▸ hj)
  inj f g t j hf hg hj hj' := h.inj f g t j hf hg (hr f t hf ▸ hj) (hr g t hg ▸ hj')

end Paced

end Layout

namespace Resolution

variable {s t t' : Resolution} {top f g : FrameId} {frame : Frame} {typ : String} {i : RangeId}

/-! ## Frames of a walk -/

/-- A frame lies in the frame `top`, inside labeled nodes and expansions. -/
inductive Nested (s : Resolution) (top : FrameId) : FrameId → Prop
  | top : Nested s top top
  | inside {f inner : FrameId} {sort : FrameKind → Prop} (h : Nested s top f)
    (hi : s.Inside f inner sort) (hk : ∀ kind, sort kind → ¬kind.IsDocument) : Nested s top inner

theorem IsSubRange.not_isDocument {kind : FrameKind} (h : IsSubRange typ kind) :
    ¬kind.IsDocument := by
  cases kind <;> simp_all [IsSubRange, FrameKind.IsDocument]

theorem IsBlock.not_isDocument {kind : FrameKind} (h : IsBlock kind) : ¬kind.IsDocument := by
  cases kind <;> simp_all [IsBlock, FrameKind.IsDocument]

theorem Nested.documentOf (h : s.Nested top f) : s.documentOf f = s.documentOf top := by
  induction h with
  | top => rfl
  | inside _ hi _ ih => exact hi.documentOf.trans ih

theorem Nested.exists_frame (h : s.Nested top f) (htop : ∃ frame, s.frame? top = some frame) :
    ∃ frame, s.frame? f = some frame := by
  cases h with
  | top => exact htop
  | inside _ hi =>
    obtain ⟨-, frame, -, hf, -⟩ := hi
    exact ⟨frame, hf⟩

/-- A frame that is nested and is that of a document is the outermost one. -/
theorem Nested.eq_top (h : s.Nested top f) (hf : s.frame? f = some frame)
    (hk : frame.kind.IsDocument) : f = top := by
  cases h with
  | top => rfl
  | inside _ hi hnot =>
    obtain ⟨-, frame', -, hf', -, -, hsort⟩ := hi
    cases hf.symm.trans hf'
    exact (hnot _ hsort hk).elim

/-- Ids are counted in a frame that is nested as well. -/
theorem Nested.owner? (h : s.Nested top f) (ho : s.Ordered) (hf : s.frame? top = some frame)
    (hk : frame.kind.IsDocument) (typ : String) :
    ∃ owner, s.owner? f typ = some owner ∧ s.Nested top owner := by
  induction h with
  | top =>
    obtain ⟨ids, hids⟩ := hk.exists_ids
    refine ⟨top, ?_, .top⟩
    rw [Resolution.owner?, countingFrame?_self hf (by rw [hids]; rfl)]
    rfl
  | @inside g inner _ hg hi hnot ih =>
    obtain ⟨-, frame', -, hf', hp, -, -⟩ := id hi
    rw [Resolution.owner?, countingFrame?_eq ho hf', hp]
    split
    · exact ⟨inner, rfl, .inside hg hi hnot⟩
    · exact ih

/-! ## The range that a frame counts in -/

/-- The range that is in use where a frame counts a label type. -/
def rangeOf? (s : Resolution) (f : FrameId) (typ : String) : Option RangeId :=
  (s.frame? f).bind fun frame =>
    match frame.kind with
    | .document _ => s.documentRange? frame.document typ
    | .subRange t _ range => if t = typ then range else none
    | _ => none

/-- The range in use is that of the frame in which the ids are counted. -/
theorem rangeOf?_owner {owner : FrameId} (hi : s.rangeIn? f typ = some i)
    (ho : s.owner? f typ = some owner) : s.rangeOf? owner typ = some i := by
  obtain ⟨owner', frame, hc, hf, hrange⟩ := rangeIn?_eq_some hi
  rw [Resolution.owner?, hc] at ho
  cases ho
  unfold rangeOf?
  rw [hf, Option.bind_some]
  rcases hrange with ⟨ids, hk⟩ | ⟨hk, hd⟩
  · rw [hk]
    exact if_pos rfl
  · obtain ⟨ids, hids⟩ := hk.exists_ids
    rw [hids]
    exact hd

theorem rangeOf?_congr (hf : t'.frame? f = t.frame? f)
    (hd : ∀ frame, t.frame? f = some frame →
      t'.documentRange? frame.document typ = t.documentRange? frame.document typ) :
    t'.rangeOf? f typ = t.rangeOf? f typ := by
  unfold rangeOf?
  rw [hf]
  cases hframe : t.frame? f with
  | none => rfl
  | some frame =>
    rw [Option.bind_some, Option.bind_some, hd frame hframe]

/-- The range inside a labeled node is the one that was opened for it. -/
theorem Labeled.rangeOf?_cases {h : Heading} {entry : EntryId} {inner : FrameId} {range : RangeId}
    {slot : SlotId} {below : RangeId} {n₁ n₂ : Numbering}
    (hl : t.Labeled t' f h entry inner range slot below n₁ n₂)
    (hi : t.Inside f inner (IsSubRange (h.typeIn t.options))) (hg : t'.rangeOf? g typ = some i) :
    g = inner ∧ typ = h.typeIn t.options ∧ i = below ∨ g ≠ inner ∧ t.rangeOf? g typ = some i := by
  have hrange : ∀ d, t'.documentRange? d typ = t.documentRange? d typ := by
    intro d
    rw [hl.same]
    rfl
  by_cases heq : g = inner
  · subst heq
    obtain ⟨-, frame, -, hframe, -, -, hsort⟩ := hi
    have hframe' := hl.frame? g
    rw [frame?_modifyKind, if_pos rfl, hframe, Option.map_some] at hframe'
    unfold rangeOf? at hg
    rw [hframe', Option.bind_some] at hg
    cases hk : frame.kind with
    | subRange typ' ids before =>
      rw [hk] at hsort hg
      obtain rfl : typ' = h.typeIn t.options := hsort
      dsimp only [FrameKind.withRange] at hg
      split at hg
      next htyp =>
        cases hg
        exact .inl ⟨rfl, htyp.symm, rfl⟩
      · cases hg
    | _ => simp [hk, IsSubRange] at hsort
  · exact .inr ⟨heq, (rangeOf?_congr (hl.frame?_eq heq) fun _ _ => hrange _) ▸ hg⟩

/-- What is handed over is not in use in other documents. -/
theorem HandedOver.rangeOf?_eq {link : Link} {document : String} {info : DocumentInfo}
    {range handle : RangeId} {n : Numbering}
    (hh : t.HandedOver t' f link document info range handle n) (hd : t.documentOf g ≠ document) :
    t'.rangeOf? g typ = t.rangeOf? g typ := by
  have hframe : t'.frame? g = t.frame? g := by
    rw [hh.same]
    rfl
  refine rangeOf?_congr hframe fun frame hf => ?_
  have hroots : t'.roots = t.roots := by
    rw [hh.same]
    rfl
  unfold documentRange? rangeFor?
  rw [hh.info?, if_neg (documentOf_eq hf ▸ hd), hroots]

/-! ## The visits -/

/-- Entries of other visits stay where they are. -/
theorem Visited.entryAt {v : Visit} {e : EntryId} {id : LabelId} (hv : t.Visited t' v)
    (hs : t.numbering.layout.Sound) (hne : v.entry? ≠ some e) (h : t.EntryAt e id) :
    t'.EntryAt e id := by
  obtain ⟨en, q, hen, hq, hid⟩ := h
  cases hv with
  | text _ _ hn | term _ _ _ _ hn =>
    rw [hn.same]
    exact ⟨en, q, hen, hq, hid⟩
  | expansion _ _ _ _ heq => exact heq ▸ ⟨en, q, hen, hq, hid⟩
  | embedding f key location link document info range handle n hh =>
    refine ⟨en, q, ?_, hq, ?_⟩
    · rw [hh.same]
      exact hen
    · rw [hh.numbering_eq]
      exact (Layout.Beside.assign hs hh.assign).slot q id hid
  | heading f h entry inner range slot below n₁ n₂ hl =>
    refine ⟨en, q, ?_, hq, (hl.beside hs).slot q id hid⟩
    rw [hl.entryAt?, if_neg fun heq => hne (congrArg some heq.symm), hen]

/-- A type is counted in the frame that has the range in use for it. -/
theorem Nested.exists_owner (hn : s.Nested top f) (ho : s.Ordered) (ht : s.Progress t)
    (hf : s.frame? top = some frame) (hk : frame.kind.IsDocument)
    (hrange : t.rangeIn? f typ = some i) :
    ∃ owner, s.owner? f typ = some owner ∧ s.Nested top owner ∧ t.rangeOf? owner typ = some i := by
  obtain ⟨owner, howner, hin⟩ := hn.owner? ho hf hk typ
  obtain ⟨frame', hframe'⟩ := hn.exists_frame ⟨frame, hf⟩
  refine ⟨owner, howner, hin, rangeOf?_owner hrange ?_⟩
  rw [owner?_of_alike (ht.ordered ho) ht.frame hframe', howner]

/-- A slot that another document gets is counted where the slot is. -/
theorem HandedOver.paced {T : Tally} {key : NodeKey} {location : Location} {link : Link}
    {document : String} {info : DocumentInfo} {range handle : RangeId} {n : Numbering}
    (hh : t.HandedOver t' f link document info range handle n) (ho : s.Ordered)
    (ht : s.Progress t) (hs : t.numbering.layout.Sound) (hf : s.frame? top = some frame)
    (hk : frame.kind.IsDocument) (hnested : s.Nested top f)
    (hgoal : s.goal? (.embedding f key location link) ≠ some (s.documentOf top))
    (hp : t.numbering.layout.Paced (s.Nested top) t.rangeOf? T) :
    t'.numbering.layout.Paced (s.Nested top) t'.rangeOf?
      (s.count T (.embedding f key location link)) := by
  have hrange := hh.range_eq
  rw [ht.options] at hrange
  obtain ⟨owner, hc, hin, hat⟩ := hnested.exists_owner ho ht hf hk hrange
  have hne : document ≠ s.documentOf top := by
    rintro rfl
    exact hgoal ((ht.documentFor? link).symm.trans hh.document_eq)
  obtain ⟨hgrow, -, hb, -⟩ := (hp.growing owner _ range hin hat).assign hs hh.assign
  have hranges : ∀ g typ, s.Nested top g → t'.rangeOf? g typ = t.rangeOf? g typ := by
    intro g typ hg
    obtain ⟨frame', hframe'⟩ := hg.exists_frame ⟨frame, hf⟩
    refine hh.rangeOf?_eq ?_
    rw [ht.documentOf_eq hframe', hg.documentOf]
    exact hne.symm
  rw [hh.numbering_eq, count, hc]
  exact (hp.advance hin hat hb hgrow).congr hranges

/-- A labeled node claims what it is counted under, and inside it a new range is counted in. -/
theorem Labeled.paced {T : Tally} {h : Heading} {entry : EntryId} {inner : FrameId}
    {range : RangeId} {slot : SlotId} {below : RangeId} {n₁ n₂ : Numbering}
    (hl : t.Labeled t' f h entry inner range slot below n₁ n₂) (ho : s.Ordered)
    (ht : s.Progress t) (hs : t.numbering.layout.Sound)
    (hready : t.Ready (.heading f h entry inner)) (hf : s.frame? top = some frame)
    (hk : frame.kind.IsDocument) (hnested : s.Nested top f)
    (hp : t.numbering.layout.Paced (s.Nested top) t.rangeOf? T) :
    t'.numbering.layout.Paced (s.Nested top) t'.rangeOf? (s.count T (.heading f h entry inner)) ∧
      t'.EntryAt entry (s.nextId T f (h.typeIn s.options)) := by
  obtain ⟨-, hinside, hreg⟩ := hready
  have hrange := hl.range_eq
  rw [ht.options] at hrange hinside
  obtain ⟨owner, hc, hin, hat⟩ := hnested.exists_owner ho ht hf hk hrange
  obtain ⟨hslot, hgrow, hbelow⟩ := hl.growing hs (hp.growing owner _ range hin hat)
  have hfresh : ∀ g typ, s.Nested top g → t.rangeOf? g typ ≠ some below := by
    intro g typ hg hbelow
    obtain ⟨r, hr⟩ := (hp.growing g typ below hg hbelow).isSome
    exact hl.below_ne hs hr rfl
  unfold count nextId
  dsimp only
  rw [hc]
  refine ⟨(hp.advance hin hat (hl.beside hs) hgrow).enter hbelow hfresh fun g typ j hj => ?_,
    hl.entryAt hreg hslot⟩
  have hcases := hl.rangeOf?_cases (ht.options.symm ▸ hinside) hj
  rwa [ht.options] at hcases

/-- A visit claims what it is counted under, and the ranges stand where the tally says then. -/
theorem Visited.paced {v : Visit} {T : Tally} (hv : t.Visited t' v) (ho : s.Ordered)
    (ht : s.Progress t) (hs : t.numbering.layout.Sound) (hready : t.Ready v)
    (hf : s.frame? top = some frame) (hk : frame.kind.IsDocument) (hnested : s.Nested top v.frame)
    (hgoal : s.goal? v ≠ some (s.documentOf top))
    (hp : t.numbering.layout.Paced (s.Nested top) t.rangeOf? T) :
    t'.numbering.layout.Paced (s.Nested top) t'.rangeOf? (s.count T v) ∧
      s.CountedAt t'.EntryAt T v := by
  cases hv with
  | text _ _ hn | term _ _ _ _ hn =>
    rw [hn.same]
    exact ⟨hp, trivial⟩
  | expansion _ _ _ _ heq => exact heq ▸ ⟨hp, trivial⟩
  | embedding f key location link document info range handle n hh =>
    exact ⟨hh.paced ho ht hs hf hk hnested hgoal hp, trivial⟩
  | heading f h entry inner range slot below n₁ n₂ hl =>
    exact hl.paced ho ht hs hready hf hk hnested hp

end Resolution

namespace Walk

variable {s t : Resolution} {top f : FrameId} {ns : List Node} {vs : List Visit}

theorem nested (h : Walk s f ns vs) (hf : s.Nested top f) : ∀ v ∈ vs, s.Nested top v.frame := by
  induction h with
  | nil => simp
  | text _ _ _ ih | term _ _ _ _ _ _ ih | embedding _ _ _ _ _ _ _ ih =>
    exact List.forall_mem_cons.2 ⟨hf, ih hf⟩
  | labeled f h _ hi _ _ _ ihb ihr =>
    refine List.forall_mem_cons.2 ⟨hf, fun v hv => ?_⟩
    exact (List.mem_append.1 hv).elim (ihb (.inside hf hi fun _ => IsSubRange.not_isDocument) v)
      (ihr hf v)
  | expansion f _ _ _ _ _ _ hi _ _ ihb ihr =>
    refine List.forall_mem_cons.2 ⟨hf, fun v hv => ?_⟩
    exact (List.mem_append.1 hv).elim (ihb (.inside hf hi fun _ => IsBlock.not_isDocument) v)
      (ihr hf v)

/-- The labeled nodes on a walk claim the slots with the ids that they are counted under. -/
theorem claims_counted {frame : Frame} {T : Tally} (h : Walk s f ns vs) (ho : s.Ordered)
    (hf : s.frame? f = some frame) (hk : frame.kind.IsDocument) (hu : s.Untangled f vs)
    (ht : s.Progress t) (hs : t.numbering.layout.Sound)
    (hp : t.numbering.layout.Paced (s.Nested f) t.rangeOf? T) :
    After True (vs.forM Run.labelVisit) t fun _ t' => s.Counted t'.EntryAt T vs := by
  refine (After.forM_split (J := fun pre _ u => s.Progress u ∧ u.numbering.layout.Sound ∧
    u.numbering.layout.Paced (s.Nested f) u.rangeOf? (pre.foldl s.count T) ∧
    s.Counted u.EntryAt T pre) ?_ ⟨ht, hs, hp, trivial⟩).mono fun _ _ hall => hall.2.2.2
  rintro pre v post u rfl ⟨hu', hs', hp', hc⟩
  have hv : v ∈ pre ++ v :: post := by simp
  have hready := (h.ready v hv).keeps hu'.toKeeps
  refine (Run.labelVisit_spec hready).mono fun _ u' hvisit => ?_
  obtain ⟨hprogress, hsound⟩ := hvisit.progress hs'
  have hgoal : s.goal? v ≠ some (s.documentOf f) := fun hgoal =>
    hu.own (List.mem_filterMap.2 ⟨v, hv, hgoal⟩)
  obtain ⟨hp'', hat⟩ := hvisit.paced ho hu' hs' hready hf hk (h.nested .top v hv) hgoal hp'
  refine ⟨hu'.trans hprogress, hsound, by rwa [List.foldl_append], counted_append.2 ⟨?_, ?_⟩⟩
  · refine hc.imp fun w hw e id he hid => hvisit.entryAt hs' (fun hve => ?_) hid
    -- no entry is visited twice
    exact (hu.disjoint hw).1 e he (List.mem_filterMap.2 ⟨v, List.mem_cons_self .., hve⟩)
  · exact ⟨hat, trivial⟩

end Walk

end Folio
