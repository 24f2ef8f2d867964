import Folio.Proofs.Resolution.Slots

/-!
# Claiming without losses

A section reference claims a slot in the range that is in use where it stands. At the top of a
document that was itself embedded, this is the range that was made for the one slot handed over,
and claiming behind that slot may cut off what follows it. Everywhere else it is a range that grows,
and then the layout stays tidy.

So if no embedded document has a section reference outside its sections, claiming is orderly
(`Prepared.orderly`): no slot is lost, and the ranges at the top are those of the entries of the
roots.
-/

namespace Folio

open Resolution

namespace Resolution

/-- The section references of embedded documents stand inside sections. -/
def InnerReferences (s : Resolution) : Prop :=
  ∀ d info vs, s.info? d = some info → info.embeddedBy.isSome →
    Walk s info.frame info.document.nodes vs → ∀ v ∈ vs, v.request?.isSome → s.InSection v.frame

/-- Claiming goes on without losses. -/
structure Orderly (s₀ s : Resolution) : Prop extends s₀.Underway s where
  tidy : s.numbering.layout.Tidy
  inner : ∀ g frame typ ids range, s.frame? g = some frame →
    frame.kind = .subRange typ ids (some range) →
    ∃ r, s.numbering.layout.range? range = some r ∧ r.stage = .growing
  entry : ∀ root entries e, s.roots.lookup root = some entries → e ∈ entries →
    ∃ r, s.numbering.layout.range? e.range = some r ∧ r.stage = .growing
  top : ∀ i r, s.numbering.layout.range? i = some r → r.stage = .growing → r.parent = none →
    ∃ root entries e, s.roots.lookup root = some entries ∧ e ∈ entries ∧ e.range = i
  handed : ∀ d info, s.info? d = some info → info.handedRanges ≠ [] → info.embeddedBy.isSome

namespace Orderly

variable {s₀ s s' : Resolution}

/-- What is in use inside a section, or in a document that is not embedded, grows. -/
theorem growing_of_rangeIn? (h : s₀.Orderly s) {d typ : String} {f : FrameId} {range : RangeId}
    (hr : s.rangeIn? f typ = some range) (hb : s.Belongs d f)
    (hd : ∀ info owner frame, s.info? d = some info → info.embeddedBy.isSome →
      s.countingFrame? f typ = some (owner, frame) → ¬frame.kind.IsDocument) :
    ∃ r, s.numbering.layout.range? range = some r ∧ r.stage = .growing := by
  obtain ⟨owner, frame, hc, hf, ⟨ids, hk⟩ | ⟨hdocument, hr⟩⟩ := rangeIn?_eq_some hr
  · exact h.inner owner frame typ ids range hf hk
  · obtain rfl : frame.document = d := hb.countingFrame? hc
    obtain ⟨info, hinfo, hl | ⟨-, root, e, -, he, rfl⟩⟩ := documentRange?_eq_some hr
    · have hne : info.handedRanges ≠ [] := by
        rintro heq
        simp [heq] at hl
      exact (hd info owner frame hinfo (h.handed _ info hinfo hne) hc hdocument).elim
    · obtain ⟨entries, hentries, hmem, -⟩ := rangeFor?_eq_some he
      exact h.entry root entries e hentries hmem

/-- Ranges grow, and no range is opened at the top. -/
theorem grow (h : s₀.Orderly s) (hu : s₀.Underway s') (ht : s'.numbering.layout.Tidy)
    (hg : s.numbering.layout.Growth s'.numbering.layout) (hroots : s'.roots = s.roots)
    (hinner : ∀ g frame typ ids range, s'.frame? g = some frame →
      frame.kind = .subRange typ ids (some range) →
      ∃ r, s'.numbering.layout.range? range = some r ∧ r.stage = .growing)
    (hhanded : ∀ d info, s'.info? d = some info → info.handedRanges ≠ [] →
      info.embeddedBy.isSome) : s₀.Orderly s' where
  toUnderway := hu
  tidy := ht
  inner := hinner
  entry root entries e hr he := hg.growing (h.entry root entries e (hroots ▸ hr) he)
  top i r' hr' hg' hp := by
    rw [hroots]
    cases hr : s.numbering.layout.range? i with
    | none => exact (hg.new i r' hr' hr hg' hp).elim
    | some r =>
      obtain ⟨u, hu, hparent, hstage⟩ := hg.kept i r hr
      cases hr'.symm.trans hu
      exact h.top i r hr (hstage.1 hg') (hparent ▸ hp)
  handed := hhanded

/-- A range is opened at the top for a root. -/
theorem withRange (h : s₀.Orderly s) {root typ : String} {settings : Option TypeSettings}
    {location : Location} {separator : String} {rule : LabelRule}
    (hu : s₀.Underway (s.withRange root typ settings location separator rule))
    {old : List RangeEntry} (hold : s.roots.lookup root = some old) :
    s₀.Orderly (s.withRange root typ settings location separator rule) := by
  have hlookup := lookup_roots_withRange s root typ settings location separator rule
  have hrange := range?_withRange s root typ settings location separator rule
  have hgrow : ∀ i, (∃ r, s.numbering.layout.range? i = some r ∧ r.stage = .growing) →
      ∃ r, (s.withRange root typ settings location separator rule).numbering.layout.range? i =
        some r ∧ r.stage = .growing := by
    rintro i ⟨r, hr, hg⟩
    rw [hrange]
    split
    · exact ⟨_, rfl, rfl⟩
    · exact ⟨r, hr, hg⟩
  refine ⟨hu, (h.tidy.newRange _ _ _).setRule _ _ _, ?_, ?_, ?_, h.handed⟩
  · exact fun g frame typ' ids range hg hk => hgrow range (h.inner g frame typ' ids range hg hk)
  · intro r entries e hr he
    rw [hlookup] at hr
    split at hr
    next heq =>
      rw [heq, hold] at hr
      cases hr
      rcases List.mem_append.1 he with he | he
      · exact hgrow e.range (h.entry root old e hold he)
      · cases List.mem_singleton.1 he
        exact ⟨_, by rw [hrange, if_pos rfl], rfl⟩
    · exact hgrow e.range (h.entry r entries e hr he)
  · intro i r hr hg hp
    rw [hrange] at hr
    split at hr
    next hi =>
      have hroot := hlookup root
      rw [if_pos rfl, hold, Option.map_some] at hroot
      exact ⟨root, _, _, hroot, List.mem_append_right old (List.mem_singleton_self _), hi.symm⟩
    · obtain ⟨root', entries, e, hlook, he, hi⟩ := h.top i r hr hg hp
      by_cases heq : root' = root
      · rw [heq, hold] at hlook
        cases hlook
        have hroot := hlookup root
        rw [if_pos rfl, hold, Option.map_some] at hroot
        exact ⟨root, _, e, hroot, List.mem_append_left _ he, hi⟩
      · exact ⟨root', entries, e, by rw [hlookup, if_neg heq, hlook], he, hi⟩

end Orderly

/-- The information on a document that nothing was handed over to lately. -/
theorem HandedOver.handed {s s' : Resolution} {f : FrameId} {link : Link} {document : String}
    {info : DocumentInfo} {range handle : RangeId} {n : Numbering}
    (hh : s.HandedOver s' f link document info range handle n)
    (hs : ∀ d info, s.info? d = some info → info.handedRanges ≠ [] → info.embeddedBy.isSome)
    (hd : info.embeddedBy.isSome) :
    ∀ d info, s'.info? d = some info → info.handedRanges ≠ [] → info.embeddedBy.isSome := by
  intro d info' hinfo' hne
  rw [hh.info?] at hinfo'
  split at hinfo'
  next heq =>
    rw [heq, hh.info_eq] at hinfo'
    cases hinfo'
    exact hd
  · exact hs d info' hinfo' hne

/-- A growing range may hand a slot over to a document that is embedded. -/
theorem Orderly.handedOver {s₀ s s' : Resolution} {f : FrameId} {key : NodeKey}
    {location : Location} {link : Link} {document : String} {info : DocumentInfo}
    {range handle : RangeId} {n : Numbering} (h : s₀.Orderly s)
    (hh : s.HandedOver s' f link document info range handle n) (hu : s₀.Underway s')
    (hv : s.Visited s' (.embedding f key location link))
    (hg : ∃ r, s.numbering.layout.range? range = some r ∧ r.stage = .growing)
    (hd : info.embeddedBy.isSome) : s₀.Orderly s' := by
  have hgrowth := hv.growth h.sound
  refine h.grow hu ?_ hgrowth ?_ (fun g frame typ ids i hframe hk => ?_) (hh.handed h.handed hd)
  · rw [hh.numbering_eq]
    refine h.tidy.assign hh.assign fun r hr => ?_
    obtain ⟨r', hr', hg⟩ := hg
    cases hr.symm.trans hr'
    exact hg
  · rw [hh.same]
    rfl
  · have hold : s.frame? g = some frame := by
      rw [← hframe, hh.same]
      rfl
    exact hgrowth.growing (h.inner g frame typ ids i hold hk)

/-- A labeled node may claim a slot of any range in use, since nothing lies below that slot. -/
theorem Orderly.labeled {s₀ s s' : Resolution} {f : FrameId} {hd : Heading} {entry : EntryId}
    {inner : FrameId} {range : RangeId} {slot : SlotId} {below : RangeId} {n₁ n₂ : Numbering}
    (h : s₀.Orderly s) (hl : s.Labeled s' f hd entry inner range slot below n₁ n₂)
    (hu : s₀.Underway s') (hv : s.Visited s' (.heading f hd entry inner))
    (hi : s.Inside f inner (IsSubRange (hd.typeIn s.options))) : s₀.Orderly s' := by
  have hgrowth := hv.growth h.sound
  obtain ⟨htidy, hbare, -, r', hr', hc'⟩ := h.tidy.next hl.next
  refine h.grow hu ?_ hgrowth ?_ (fun g frame typ ids i hframe hk => ?_) fun d info hinfo hne => ?_
  · rw [hl.numbering_eq]
    refine (htidy.sub hl.sub fun r q hr hq => ?_).withNested _ _
    cases hr.symm.trans hr'
    cases hq.symm.trans hc'
    exact hbare
  · rw [hl.same]
  · rcases hl.frame_cases hi hframe hk with hold | ⟨-, rfl, -⟩
    · exact hgrowth.growing (h.inner g frame typ ids i hold hk)
    · rw [hl.numbering_eq]
      exact (Layout.Growth.withNested ..).growing (Layout.growing_of_sub hl.sub)
  · refine h.handed d info ?_ hne
    rw [← hinfo, hl.same]
    rfl

end Resolution

namespace Prepared

variable {c : Collection} {W : List (String × List Visit)} {s₀ : Resolution}

theorem targetOf_eq (h : Prepared c W s₀) {link : Link} {document : String}
    (hd : s₀.documentFor? link = some document) : s₀.targetOf link = document := by
  obtain ⟨address, ha, hd⟩ := Option.bind_eq_some_iff.1 hd
  split at hd
  · cases hd
    cases link with
    | tag name => simp [targetOf, ha]
    | place path anchor => exact (h.place path anchor address ha).symm
  · simp at hd

/-- What a section reference leads to is embedded where it stands. -/
theorem embeddedBy_of_visit (h : Prepared c W s₀) {d : String} {vs : List Visit} {f : FrameId}
    {key : NodeKey} {location : Location} {link : Link} (hw : (d, vs) ∈ W)
    (hv : .embedding f key location link ∈ vs) {document : String}
    (hd : s₀.documentFor? link = some document) :
    ∃ info, s₀.info? document = some info ∧ info.embeddedBy = some (d, location) := by
  obtain ⟨outer, houter, -, hrequests⟩ := h.walk d vs hw
  have hmem : (link, location) ∈ outer.requests.map fun r => (r.link, r.location) := by
    rw [hrequests]
    exact List.mem_map.2 ⟨⟨link, location, none⟩,
      List.mem_filterMap.2 ⟨_, hv, rfl⟩, rfl⟩
  obtain ⟨r, hr, heq⟩ := List.mem_map.1 hmem
  cases heq
  obtain ⟨d', info, -, rfl, hinfo, hby⟩ := h.arranged.target d outer r houter hr
  rw [h.targetOf_eq hd] at hinfo
  exact ⟨info, hinfo, hby⟩

section HandedOver

variable {t t' : Resolution} {d : String} {vs : List Visit} {f : FrameId} {key : NodeKey}
  {location : Location} {link : Link} {document : String} {info : DocumentInfo}
  {range handle : RangeId} {n : Numbering}

/-- A slot is handed over to a document that is embedded there. -/
theorem embeddedBy_of_handedOver (h : Prepared c W s₀) (ht : s₀.Progress t) (hw : (d, vs) ∈ W)
    (hv : .embedding f key location link ∈ vs)
    (hh : t.HandedOver t' f link document info range handle n) :
    ∃ target, s₀.info? document = some target ∧ target.embeddedBy = some (d, location) ∧
      info.embeddedBy = some (d, location) := by
  have hdocument : s₀.documentFor? link = some document := by
    rw [← ht.documentFor?]
    exact hh.document_eq
  obtain ⟨target, htarget, hby⟩ := h.embeddedBy_of_visit hw hv hdocument
  obtain ⟨handedRanges, hinfo⟩ := ht.info document target htarget
  cases hh.info_eq.symm.trans hinfo
  exact ⟨target, htarget, hby, hby⟩

/-- A slot is handed over from a range that grows, if the references of embedded documents stand
inside sections. -/
theorem growing_of_handedOver (h : Prepared c W s₀) (hinner : s₀.InnerReferences)
    (ht : s₀.Orderly t) (hw : (d, vs) ∈ W) (hv : .embedding f key location link ∈ vs)
    (hb : t.Belongs d f) (hh : t.HandedOver t' f link document info range handle n) :
    ∃ r, t.numbering.layout.range? range = some r ∧ r.stage = .growing := by
  refine ht.growing_of_rangeIn? hh.range_eq hb fun outer owner frame houter hby hc hk => ?_
  obtain ⟨info₀, hinfo₀, hwalk, -⟩ := h.walk d vs hw
  obtain ⟨handedRanges, hinfo⟩ := ht.progress.info d info₀ hinfo₀
  cases houter.symm.trans hinfo
  have hin := hinner d info₀ vs hinfo₀ hby hwalk _ hv rfl
  rw [← ht.progress.toKeeps.inSection_iff ht.progress.frames_size] at hin
  obtain ⟨owner', frame', hc', hnot⟩ := hin
  cases hc.symm.trans hc'
  exact hnot hk

end HandedOver

/-- Claiming is orderly if the section references of embedded documents stand inside sections. -/
theorem orderly (h : Prepared c W s₀) (hinner : s₀.InnerReferences) :
    Claiming.Invariant W s₀ fun _ => s₀.Orderly where
  start d := by
    refine ⟨h.underway.start d, ?_, fun g frame typ ids range hg hk => ?_,
      fun root entries e hr he => ?_, fun i r hr => ?_, fun d info hd hne => ?_⟩
    · rw [h.numbering]
      exact .empty
    · have := h.blank g frame hg
      simp [hk, FrameKind.Blank] at this
    · simp [(h.roots root entries hr).1] at he
    · simp [h.numbering, Layout.range?] at hr
    · exact (hne (h.info d info hd).2.2).elim
  progress _ t ht := ⟨ht.progress, ht.sound⟩
  range e t d info typ location separator rule ht hd htyp hnone hrule := by
    have hu := h.underway.range e t d info typ location separator rule ht.toUnderway hd htyp hnone hrule
    obtain ⟨root, hroot, -, hmem⟩ := h.root d info hd
    rw [hroot, Option.getD_some] at hu hnone ⊢
    obtain ⟨old, hold⟩ : ∃ old, t.roots.lookup root = some old := by
      refine Table.mem_keys_iff.1 ?_
      rw [ht.progress.root_keys]
      exact hmem
    exact ht.withRange hu hold
  active e t d info ht hd := by
    refine ht.grow (h.underway.active e t d info ht.toUnderway hd) (ht.tidy.setActive _)
      (.setActive t.numbering _) rfl ?_ ht.handed
    exact ht.inner
  visit t t' d info vs v ht hd hw hv hready hb hvisit := by
    have hu := h.underway.visit t t' d info vs v ht.toUnderway hd hw hv hready hb hvisit
    cases hvisit with
    | text _ _ hn | term _ _ _ _ hn =>
      have hsame := hn.same
      rw [hsame] at hu ⊢
      exact ⟨hu, ht.tidy, ht.inner, ht.entry, ht.top, ht.handed⟩
    | expansion _ _ _ _ heq => exact heq ▸ ht
    | embedding f key location link document info' range handle n hh =>
      obtain ⟨target, htarget, -, hby⟩ := h.embeddedBy_of_handedOver ht.progress hw hv hh
      exact ht.handedOver hh hu (.embedding f key location link _ _ _ _ _ hh)
        (h.growing_of_handedOver hinner ht hw hv hb hh) (by simp [hby])
    | heading f h' entry inner range slot below n₁ n₂ hl =>
      exact ht.labeled hl hu (.heading f h' entry inner _ _ _ _ _ hl) hready.2.1

end Prepared

/-! ## After a resolution -/

namespace Resolution

/-- A slot hangs on a range of a root. -/
def Reached (s : Resolution) (q : SlotId) : Prop :=
  ∃ root entries, s.roots.lookup root = some entries ∧
    CoversAny s.numbering.layout entries q

theorem Progress.innerReferences {s₀ s : Resolution} (h : s₀.Progress s) {s' : Resolution}
    (hk : s.Keeps s') (hframes : s'.frames = s.frames) (hdocuments : s'.documents = s.documents)
    (hs : s'.InnerReferences) : s₀.InnerReferences := by
  intro d info vs hd hby hw v hv hr
  obtain ⟨handedRanges, hd'⟩ := h.info d info hd
  have hkeeps := h.toKeeps.trans hk
  have hsize : s'.frames.size = s₀.frames.size := by rw [hframes, h.frames_size]
  have hd'' : s'.info? d = some { info with handedRanges } := by
    rw [info?, hdocuments]
    exact hd'
  exact (hkeeps.inSection_iff hsize v.frame).1
    (hs d _ vs hd'' hby (hw.keeps hkeeps) v hv hr)

end Resolution

namespace Resolved

variable {c : Collection} {W : List (String × List Visit)} {s₀ s₁ s₂ s : Resolution}

theorem numbering_eq (h : Resolved c W s₀ s₁ s₂ s) : s.numbering = s₂.numbering := by
  rw [h.settled.same]

/-- The slots that hang on a range of a root are those with labels. -/
theorem isSome_label_iff (h : Resolved c W s₀ s₁ s₂ s) {q : SlotId} {t : Slot}
    (ht : s.numbering.layout.slot? q = some t) : t.label.isSome ↔ s.Reached q := by
  rw [h.numbering_eq] at ht
  obtain ⟨label, ht₁⟩ := h.bound.relabeled.symm.slot q t ht
  have hroots : s.roots = s₁.roots := by rw [h.settled.same, h.bound.same]
  rw [h.bound.label q _ t ht₁ ht, h.underway.unlabeled q _ ht₁]
  simp only [Option.isSome_none, Bool.false_eq_true, false_or, Reached, hroots, h.numbering_eq,
    CoversAny, h.bound.relabeled.covers_iff]

/-- Every entry has a slot. -/
theorem exists_slot (h : Resolved c W s₀ s₁ s₂ s) {e : EntryId} {entry : Entry}
    (he : s.registry.entryAt? e = some entry) :
    ∃ q t, entry.slot = some q ∧ s.numbering.layout.slot? q = some t := by
  have hregistry : s₂.registry = s₁.registry := by rw [h.bound.same]
  have hlt : e.index < s₁.registry.entries.size := by
    rw [← hregistry, ← h.settled.entries_size]
    exact (Array.getElem?_eq_some_iff.1 he).1
  obtain ⟨entry₁, he₁⟩ : ∃ entry₁, s₁.registry.entryAt? e = some entry₁ :=
    ⟨_, Array.getElem?_eq_getElem hlt⟩
  obtain ⟨entry₁', q, he₁', hq, hqlt⟩ := h.slotted e entry₁ he₁
  obtain ⟨title, he'⟩ := h.settled.title e entry₁' (hregistry ▸ he₁')
  cases he.symm.trans he'
  obtain ⟨t, ht⟩ := Layout.slot?_isSome (q := q) (l := s.numbering.layout) (by
    rw [h.numbering_eq, h.bound.relabeled.size]
    exact hqlt)
  exact ⟨q, t, hq, ht⟩

theorem document_mem (h : Resolved c W s₀ s₁ s₂ s) {d : String} {info : DocumentInfo}
    (hd : s.info? d = some info) : (d, info.document) ∈ c.documents := by
  obtain ⟨info₀, hinfo₀, heq⟩ := h.exists_info hd
  rw [heq]
  exact (h.prepared.info d info₀ hinfo₀).1

/-- After orderly claiming every slot has a label. -/
theorem isSome_label (h : Resolved c W s₀ s₁ s₂ s) (ho : s₀.Orderly s₁) {q : SlotId} {t : Slot}
    (ht : s.numbering.layout.slot? q = some t) : t.label.isSome := by
  rw [h.isSome_label_iff ht]
  rw [h.numbering_eq] at ht
  obtain ⟨label, ht₁⟩ := h.bound.relabeled.symm.slot q t ht
  obtain ⟨i, r, hi, hg, hp, hc⟩ := ho.tidy.covered ht₁
  obtain ⟨root, entries, e, hlookup, he, rfl⟩ := ho.top i r hi hg hp
  refine ⟨root, entries, ?_, e, he, ?_⟩
  · rw [h.settled.same, h.bound.same]
    exact hlookup
  · rw [h.numbering_eq, h.bound.relabeled.covers_iff]
    exact hc

end Resolved

end Folio
