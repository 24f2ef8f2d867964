import Folio.Proofs.Resolution.Regular
import Folio.Proofs.Resolution.Substitution
import Folio.Proofs.Resolution.Supplied

/-!
# Claiming does not fail internally

While slots are claimed, the ranges in use are of the right types, those at the top have rules, and
states are found again (`Resolution.Steady`). In the document at hand, the ranges that its nodes
count in are there as well: at the top because it asked for them (`Resolution.Serves`), and inside a
labeled node because that node has opened its range (`Resolution.Ranged`).

So a visit finds the range it needs and fails at most because a slot that was handed over is taken
(`Run.labelVisit_ends`). `Run.visits_ends` carries that through the walk of a document and
`Run.claimAll_ends` through all documents, and `Run.bindRoots_ends` says that all ranges at the top
get their labels.
-/

namespace Folio

open Resolution

/-! ## Requests for slots -/

namespace Numbering

variable {n n' : Numbering} {range : RangeId}

/-- A range that is there fails to hand out a slot only if its one slot is taken. -/
theorem not_internal_of_next {r : Range} (hr : n.layout.range? range = some r) {e : NumberingError}
    (h : n.next range = .error e) : ¬e.Internal := by
  unfold next at h
  rw [hr] at h
  dsimp only at h
  split at h <;> cases h
  exact id

/-- A range that has just handed out a slot has it at hand, and is not opened below it. -/
theorem current_of_next (hs : n.layout.Sound) {slot : SlotId} (h : n.next range = .ok (slot, n')) :
    ∃ r, n'.layout.range? range = some r ∧ r.current = some slot ∧ r.subOpened = false := by
  obtain ⟨r, hr, -, ⟨-, hc, rfl⟩ | ⟨-, heq⟩⟩ := next_cases h
  · refine ⟨{ r with subOpened := false, stage := .finalized }, ?_, hc, rfl⟩
    rw [Layout.range?_setRange, if_pos rfl, hr]
    rfl
  · have hslot : slot = n.layout.freshSlot := by
      rw [claim_eq] at heq
      exact (Prod.mk.inj heq).1
    cases heq
    exact ⟨_, ((hs.claim hr false none).range range).trans (if_pos rfl), by rw [hslot]; rfl, rfl⟩

theorem exists_sub_of_next (hs : n.layout.Sound) {slot : SlotId}
    (h : n.next range = .ok (slot, n')) : ∃ below n'', n'.sub range = .ok (below, n'') := by
  obtain ⟨r, hr, hc, ho⟩ := current_of_next hs h
  obtain ⟨t, ht⟩ : ∃ t, n'.layout.slot? slot = some t :=
    ⟨_, Array.getElem?_eq_getElem (hs.lt_of_next h).1⟩
  cases hsub : n'.sub range with
  | ok p => exact ⟨p.1, p.2, rfl⟩
  | error e =>
    unfold sub at hsub
    simp [hr, hc, ht, ho] at hsub

/-- A range that is there can be given away. -/
theorem assign_ne_error {r : Range} (hr : n.layout.range? range = some r) {level : Option Nat}
    {e : NumberingError} : n.assign range level ≠ .error e := by
  intro h
  unfold assign at h
  rw [hr] at h
  cases h

end Numbering

namespace Resolution

/-! ## Ranges of the frames -/

/-- A frame lies in the frame of a document, and the ranges of the frames between are there. -/
inductive Ranged (s : Resolution) (d : String) : FrameId → Prop
  | top {f : FrameId} (frame : Frame) (hf : s.frame? f = some frame) (hd : frame.document = d)
    (hk : frame.kind.IsDocument) : Ranged s d f
  | inside {f g : FrameId} (frame : Frame) (hf : s.frame? f = some frame)
    (hd : frame.document = d) (hp : frame.parent = some g)
    (hk : ∀ typ ids range, frame.kind = .subRange typ ids range → range.isSome)
    (hg : Ranged s d g) : Ranged s d f

theorem scopeOf_modifyKind (s : Resolution) (f : FrameId) (kind : FrameKind → FrameKind)
    (g : FrameId) : (s.modifyKind f kind).scopeOf g = s.scopeOf g := by
  unfold scopeOf
  rw [frame?_modifyKind]
  split
  · rw [Option.map_map]
    rfl
  · rfl

/-- A range is in use in the frame, if one is in use at the top of the document. -/
theorem Ranged.isSome_rangeIn? {s : Resolution} (ho : s.Ordered) {d typ : String} {f : FrameId}
    (h : s.Ranged d f) (hd : (s.documentRange? d typ).isSome) : (s.rangeIn? f typ).isSome := by
  induction h with
  | @top f frame hf hdoc hk =>
    obtain ⟨ids, hk⟩ := hk.exists_ids
    rw [rangeIn?_document hf hk, hdoc]
    exact hd
  | @inside f g frame hf hdoc hp hk _ ih =>
    unfold rangeIn? at ih ⊢
    rw [countingFrame?_eq ho hf, hp]
    by_cases hcounts : frame.kind.counts typ
    · rw [if_pos hcounts]
      obtain ⟨parent, document, scope, kind⟩ := frame
      cases kind with
      | document ids => exact (show document = d from hdoc) ▸ hd
      | subRange t ids range => exact hk t ids range rfl
      | block | static => cases hcounts
    · rw [if_neg hcounts]
      exact ih

/-- A visit opens ranges, and takes none back. -/
theorem Ranged.visited {s s' : Resolution} {v : Visit} (h : s.Visited s' v) {d : String}
    {f : FrameId} (hf : s.Ranged d f) : s'.Ranged d f := by
  have hframe : ∀ g frame, s.frame? g = some frame → ∃ frame', s'.frame? g = some frame' ∧
      frame.Alike frame' ∧ (frame'.kind = frame.kind ∨
        ∃ range, frame'.kind = frame.kind.withRange range) := by
    intro g frame hg
    cases h with
    | text _ _ hn | term _ _ _ _ hn =>
      refine ⟨frame, ?_, .refl frame, .inl rfl⟩
      rw [hn.same]
      exact hg
    | expansion _ _ _ _ heq => exact ⟨frame, heq ▸ hg, .refl frame, .inl rfl⟩
    | embedding _ _ _ _ _ _ _ _ _ hh =>
      refine ⟨frame, ?_, .refl frame, .inl rfl⟩
      rw [hh.same]
      exact hg
    | heading f h' entry inner range slot below n₁ n₂ hl =>
      rw [hl.frame?, frame?_modifyKind, hg]
      split
      · exact ⟨_, rfl, ⟨rfl, rfl, rfl, FrameKind.withRange_alike below frame.kind⟩,
          .inr ⟨below, rfl⟩⟩
      · exact ⟨frame, rfl, .refl frame, .inl rfl⟩
  induction hf with
  | top frame hf hd hk =>
    obtain ⟨frame', hf', ha, -⟩ := hframe _ frame hf
    exact .top frame' hf' (ha.2.1.trans hd) (hk.alike ha.2.2.2)
  | inside frame hf hd hp hk _ ih =>
    obtain ⟨frame', hf', ha, hkind⟩ := hframe _ frame hf
    refine .inside frame' hf' (ha.2.1.trans hd) (ha.1.trans hp) (fun typ ids range hk' => ?_) ih
    rcases hkind with hkind | ⟨below, hkind⟩
    · exact hk typ ids range (hkind ▸ hk')
    · rw [hkind] at hk'
      cases hold : frame.kind <;> simp [hold, FrameKind.withRange] at hk'
      simp [← hk'.2.2]

/-- The frame inside a labeled node has a range once the node is labeled. -/
theorem Ranged.labeled {s s' : Resolution} {d : String} {f : FrameId} {h : Heading}
    {entry : EntryId} {inner : FrameId} {range : RangeId} {slot : SlotId} {below : RangeId}
    {n₁ n₂ : Numbering} (hl : s.Labeled s' f h entry inner range slot below n₁ n₂)
    (hi : s.Inside f inner (IsSubRange (h.typeIn s.options))) (hf : s.Ranged d f) :
    s'.Ranged d inner := by
  have hf' := hf.visited (.heading f h entry inner range slot below n₁ n₂ hl)
  obtain ⟨outer, frame, ho, hframe, hp, hd, -⟩ := hi
  have houter : outer.document = d := by
    cases hf with
    | top _ hf hd | inside _ hf hd =>
      cases ho.symm.trans hf
      exact hd
  have hnew : s'.frame? inner = some { frame with kind := frame.kind.withRange below } := by
    rw [hl.frame?, frame?_modifyKind, if_pos rfl, hframe]
    rfl
  refine .inside _ hnew (hd.trans houter) hp (fun typ ids range hk => ?_) hf'
  cases hold : frame.kind <;> simp [hold, FrameKind.withRange] at hk
  simp [← hk.2.2]

theorem Ranged.enter {s : Resolution} {d : String} {f inner : FrameId}
    (hi : s.Inside f inner IsBlock) (hf : s.Ranged d f) : s.Ranged d inner := by
  obtain ⟨outer, frame, ho, hframe, hp, hd, hk⟩ := hi
  have houter : outer.document = d := by
    cases hf with
    | top _ hf hd | inside _ hf hd =>
      cases ho.symm.trans hf
      exact hd
  refine .inside _ hframe (hd.trans houter) hp (fun typ ids range heq => ?_) hf
  rw [heq] at hk
  exact hk.elim

/-! ## Steady resolutions -/

/-- Slots are claimed, ranges are what the documents make of them, and states are found again. -/
structure Steady (s₀ s : Resolution) : Prop extends s₀.Underway s where
  typed : s.Typed
  configured : s₀.Configured s
  recalls : Recalls NodeState.untargeted s₀ s

/-- The ranges that a document asked for are there. -/
structure Serves (s₀ : Resolution) (d : String) (s : Resolution) : Prop extends s₀.Steady s where
  serves : ∀ typ, s₀.Requested d typ → (s.documentRange? d typ).isSome

namespace Steady

variable {c : Collection} {W : List (String × List Visit)} {s₀ s s' : Resolution}

theorem start (hp : Prepared c W s₀) : s₀.Steady s₀ where
  toUnderway := hp.underway.start ""
  typed := by
    refine ⟨fun g frame t ids range hg hk => ?_, fun root entries e hr he => ?_,
      fun d info t range hd hm => ?_⟩
    · have := hp.blank g frame hg
      simp [hk, FrameKind.Blank] at this
    · simp [(hp.roots root entries hr).1] at he
    · simp [(hp.info d info hd).2.2] at hm
  configured root entries e hr he := by simp [(hp.roots root entries hr).1] at he
  recalls := .refl s₀

/-- A range is opened for a root as a document configures it. -/
theorem withRange (hp : Prepared c W s₀) (h : s₀.Steady s) {d typ : String} {info : DocumentInfo}
    (hd : s₀.info? d = some info) (htyp : typ ∈ info.ranges)
    (hnone : s.rangeFor? (info.root.getD d) typ = none) {location : Location} {separator : String}
    {rule : LabelRule} (hrule : Run.newRule s.options typ (info.document.settings.lookup typ) =
      .ok (separator, rule)) :
    s₀.Steady (s.withRange (info.root.getD d) typ (info.document.settings.lookup typ) location
      separator rule) where
  toUnderway := hp.underway.range d s d info typ location separator rule h.toUnderway hd htyp hnone
    hrule
  typed := h.typed.withRange ..
  configured := h.configured.withRange h.progress.options hd hrule
  recalls := h.recalls

theorem setActive (h : s₀.Steady s) (active : List (String × RangeId)) :
    s₀.Steady { s with numbering := s.numbering.setActive active } where
  progress := h.progress.trans (.of_numbering rfl (Nat.le_refl _))
  sound := h.sound.setActive _
  unlabeled := h.unlabeled
  distinct := h.distinct
  typed := ⟨h.typed.inner, h.typed.entry, h.typed.handed⟩
  configured := h.configured
  recalls := h.recalls

theorem visit (h : s₀.Steady s) {v : Visit} (hready : s.Ready v) (hv : s.Visited s' v)
    (hr : Recalls NodeState.untargeted s s') : s₀.Steady s' where
  progress := h.progress.trans (hv.progress h.sound).1
  sound := (hv.progress h.sound).2
  unlabeled := (hv.growth h.sound).unlabeled h.unlabeled
  distinct := by
    rw [Distinct, hv.roots]
    exact h.distinct
  typed := h.typed.visit h.sound hready hv
  configured root entries e hr he := by
    rw [hv.roots] at hr
    exact (h.configured root entries e hr he).grow fun _ _ hr => hv.settings h.sound hr
  recalls := h.recalls.trans hr

/-- What was legible is so still. -/
theorem legible (h : s₀.Steady s) {f : FrameId} {t : InlineText}
    (ht : s₀.Legible (s₀.frames.size + 1) f t) : s.Legible (s.frames.size + 1) f t := by
  rw [h.progress.frames_size]
  exact ht.recalls (h.recalls.mono fun _ _ => NodeState.core_eq_of_untargeted)

end Steady

/-- A document that is handed over a range has one for the type afterwards. -/
theorem Visited.isSome_documentRange? {s s' : Resolution} {v : Visit} (h : s.Visited s' v)
    {d typ : String} (hd : (s.documentRange? d typ).isSome) : (s'.documentRange? d typ).isSome := by
  cases h with
  | text _ _ hn | term _ _ _ _ hn =>
    rw [hn.same]
    exact hd
  | expansion _ _ _ _ heq => exact heq ▸ hd
  | heading _ _ _ _ _ _ _ _ _ hl =>
    rw [hl.same]
    exact hd
  | embedding f key location link document info range handle n hh =>
    obtain ⟨i, hi⟩ := Option.isSome_iff_exists.1 hd
    obtain ⟨info', hinfo', hcases⟩ := documentRange?_eq_some hi
    have hrange : ∀ t, s'.rangeFor? t = s.rangeFor? t := by
      rw [hh.same]
      exact fun _ => rfl
    unfold documentRange? at hd ⊢
    rw [hh.info?]
    simp only [hrange]
    split
    · rw [hinfo'] at hd ⊢
      simp only [Option.map_some, Option.bind_eq_bind, Option.bind_some, List.lookup_cons] at hd ⊢
      split
      next handle' heq => rfl
      next hnone =>
        split at hnone
        · cases hnone
        · rw [hnone] at hd
          exact hd
    · exact hd

theorem Serves.visit {s₀ s s' : Resolution} {d : String} (h : s₀.Serves d s) {v : Visit}
    (hready : s.Ready v) (hv : s.Visited s' v) (hr : Recalls NodeState.untargeted s s') :
    s₀.Serves d s' where
  toSteady := h.toSteady.visit hready hv hr
  serves typ ht := hv.isSome_documentRange? (h.serves typ ht)

/-- The range for a request is in use in each frame of the document. -/
theorem Serves.isSome_rangeIn? {s₀ s : Resolution} {d typ : String} (h : s₀.Serves d s)
    (ho : s₀.Ordered) {f : FrameId} (hf : s.Ranged d f) (ht : s₀.Requested d typ) :
    (s.rangeIn? f typ).isSome :=
  hf.isSome_rangeIn? (h.progress.ordered ho) (h.serves typ ht)

end Resolution

/-! ## Visits -/

namespace Run

variable {c : Collection} {W : List (String × List Visit)} {s₀ s : Resolution} {d : String}

theorem numberRange_ends {f : FrameId} {typ : String} {location : Location}
    (h : (s.rangeIn? f typ).isSome) {R : ResolveError → Prop} {Q : RangeId → Resolution → Prop}
    (hQ : ∀ range, s.rangeIn? f typ = some range → Q range s) :
    Ends R (numberRange f typ location) s Q := by
  obtain ⟨range, hrange⟩ := Option.isSome_iff_exists.1 h
  unfold numberRange
  rw [Ends.bind_iff, Ends.get_iff]
  exact ends_orFail_iff.2 ⟨hQ, fun hnone => by cases hrange.symm.trans hnone⟩

theorem labelHeading_ends (h : s₀.Serves d s) (ho : s₀.Ordered) {f : FrameId} {hd : Heading}
    {entry : EntryId} {inner : FrameId} (hst : s.Holds f hd.key (.labeled entry inner))
    (ht : s.Legible (s.frames.size + 1) f hd.title) (hf : s.Ranged d f)
    (hr : s₀.Requested d (hd.typeIn s.options)) :
    Ends ResolveError.External (labelHeading f hd) s fun _ s' =>
      Recalls NodeState.untargeted s s' := by
  unfold labelHeading
  rw [Ends.bind_iff, labeledState_iff hst, Ends.bind_iff]
  refine (labelText_ends ht).mono fun _ s₁ ⟨h₁, hrecalls⟩ => ?_
  rw [Ends.bind_iff, Ends.get_iff]
  dsimp only
  have hoptions : s₁.options = s.options := by rw [h₁.same]
  have hnumbering : s₁.numbering = s.numbering := by rw [h₁.same]
  rw [hoptions, Ends.bind_iff]
  refine numberRange_ends ?_ fun range hrange => ?_
  · rw [h₁.rangeIn?]
    exact h.isSome_rangeIn? ho hf hr
  rw [h₁.rangeIn?] at hrange
  obtain ⟨r, hr, -⟩ := h.typed.of_rangeIn? hrange
  rw [Ends.bind_iff, ends_numbering_iff, hnumbering]
  refine ⟨fun slot n hnext => ?_, fun e he => Numbering.not_internal_of_next hr he⟩
  obtain ⟨below, n', hsub⟩ := Numbering.exists_sub_of_next h.sound hnext
  rw [Ends.bind_iff]
  unfold bindSlot
  rw [Ends.modify_iff, Ends.bind_iff, ends_numbering_iff]
  refine ⟨fun below' n'' _ => ?_, fun e he => by cases hsub.symm.trans he⟩
  -- only the text has set states, and the frames keep their scopes
  refine Ends.mono (Q := fun _ s' => s'.states = s₁.states ∧ ∀ g, s'.scopeOf g = s₁.scopeOf g) ?_
    fun _ s' ⟨hstates, hscope⟩ => hrecalls.trans (.of_states hstates hscope)
  cases hd.nested with
  | none =>
    rw [Ends.bind_iff]
    exact ⟨rfl, fun g => scopeOf_modifyKind ..⟩
  | some nested =>
    rw [Ends.bind_iff]
    unfold setNestedRule
    rw [Ends.modify_iff, Ends.bind_iff]
    exact ⟨rfl, fun g => scopeOf_modifyKind ..⟩

theorem labelEmbedding_ends (h : s₀.Serves d s) (ho : s₀.Ordered) {f : FrameId} {key : NodeKey}
    {location : Location} {link : Link} (hst : s.Holds f key (.embedding link))
    (hf : s.Ranged d f) (hr : s₀.Requested d s.options.sectionType) :
    Ends ResolveError.External (labelEmbedding f key location) s fun _ s' =>
      Recalls NodeState.untargeted s s' := by
  unfold labelEmbedding
  rw [Ends.bind_iff, Ends.get_iff, hst.state?]
  dsimp only
  rw [Ends.bind_iff, Ends.pure_iff, Ends.bind_iff, ends_orFail_iff]
  refine ⟨fun _ _ => ?_, fun _ => id⟩
  rw [Ends.bind_iff, ends_orFail_iff]
  refine ⟨fun document _ => ?_, fun _ => id⟩
  rw [Ends.bind_iff]
  refine numberRange_ends (h.isSome_rangeIn? ho hf hr) fun range hrange => ?_
  obtain ⟨r, hr, -⟩ := h.typed.of_rangeIn? hrange
  rw [Ends.bind_iff, Ends.get_iff]
  split
  · exact .refl s
  · rw [Ends.bind_iff, ends_numbering_iff]
    refine ⟨fun handle n _ => ?_, fun e he => absurd he (Numbering.assign_ne_error hr)⟩
    rw [Ends.modify_iff]
    exact .of_states rfl fun _ => rfl

/-- A visit finds the range it needs. -/
theorem labelVisit_ends (h : s₀.Serves d s) (ho : s₀.Ordered) {v : Visit} (hsight : s₀.Sighted v)
    (hask : s₀.Asked v) (hb : s₀.documentOf v.frame = d) (hready : s.Ready v)
    (hf : s.Ranged d v.frame) : Ends ResolveError.External (labelVisit v) s fun _ s' =>
      s₀.Serves d s' ∧ s.Visited s' v := by
  have hoptions := h.progress.options
  have hend : Ends ResolveError.External (labelVisit v) s fun _ s' =>
      Recalls NodeState.untargeted s s' := by
    cases v with
    | text f content => exact (labelText_ends (h.legible hsight)).mono fun _ _ h => h.2
    | term f key location content =>
      exact (labelText_ends (h.legible hsight.1)).mono fun _ _ h => h.2
    | heading f hd entry inner =>
      unfold labelVisit
      rw [Ends.bind_iff]
      refine labelHeading_ends h ho hready.1 (h.legible hsight) hf ?_
      rw [hoptions, ← hb]
      exact hask
    | embedding f key location link =>
      refine labelEmbedding_ends h ho hready hf ?_
      rw [hoptions, ← hb]
      exact hask
    | expansion f key location inner =>
      obtain ⟨⟨body, hst⟩, -⟩ := hready
      unfold labelVisit
      rw [Ends.bind_iff, expansionState_iff hst]
      exact .refl s
  refine (hend.inspect (labelVisit_spec hready)).mono fun _ s' ⟨hv, hr⟩ => ?_
  exact ⟨h.visit hready hv hr, hv⟩

/-- Making visits keeps that a document is served, and the ranges of its frames. -/
def Serving (s₀ t : Resolution) (d : String) (vs : List Visit) (s : Resolution) : Prop :=
  Ends ResolveError.External (vs.forM labelVisit) s fun _ s' =>
    t.Keeps s' ∧ s₀.Serves d s' ∧ ∀ g, s.Ranged d g → s'.Ranged d g

theorem Serving.append {t : Resolution} {vs ws : List Visit} (h : Serving s₀ t d vs s)
    (hw : ∀ s', t.Keeps s' → s₀.Serves d s' → (∀ g, s.Ranged d g → s'.Ranged d g) →
      Serving s₀ t d ws s') : Serving s₀ t d (vs ++ ws) s := by
  unfold Serving
  rw [Ends.forM_append]
  refine Ends.mono h fun _ s₁ ⟨hs₁, h₁, hg₁⟩ => ?_
  exact Ends.mono (hw s₁ hs₁ h₁ hg₁) fun _ s₂ ⟨hs₂, h₂, hg₂⟩ =>
    ⟨hs₂, h₂, fun g hg => hg₂ g (hg₁ g hg)⟩

theorem Serving.cons {t : Resolution} (ho : s₀.Ordered) {v : Visit} {vs : List Visit}
    (hv : s₀.Sighted v ∧ s₀.Asked v ∧ s₀.documentOf v.frame = d) (hready : t.Ready v)
    (hs : t.Keeps s) (h : s₀.Serves d s) (hf : s.Ranged d v.frame)
    (hvs : ∀ s', t.Keeps s' → s₀.Serves d s' → s.Visited s' v → s'.Ranged d v.frame →
      Serving s₀ t d vs s') : Serving s₀ t d (v :: vs) s := by
  obtain ⟨hsight, hask, hb⟩ := hv
  unfold Serving
  rw [Ends.forM_cons]
  refine (labelVisit_ends h ho hsight hask hb (hready.keeps hs) hf).mono fun _ s₁ ⟨h₁, hv⟩ => ?_
  refine Ends.mono (hvs s₁ (hs.trans hv.keeps) h₁ hv (hf.visited hv)) ?_
  exact fun _ s₂ ⟨hs₂, h₂, hg⟩ => ⟨hs₂, h₂, fun g hgr => hg g (hgr.visited hv)⟩

/-- The visits of a walk are made, each of them in a frame that has its ranges. -/
theorem visits_ends {t : Resolution} (ho : s₀.Ordered) {f : FrameId} {ns : List Node}
    {vs : List Visit} (hw : Walk t f ns vs)
    (hvs : ∀ v ∈ vs, s₀.Sighted v ∧ s₀.Asked v ∧ s₀.documentOf v.frame = d) :
    ∀ s, t.Keeps s → s₀.Serves d s → s.Ranged d f → Serving s₀ t d vs s := by
  induction hw with
  | nil f => exact fun s hs h _ => ⟨hs, h, fun _ h => h⟩
  | text f content _ ih | term f _ _ _ content _ ih =>
    intro s hs h hf
    obtain ⟨hv, hvs⟩ := List.forall_mem_cons.1 hvs
    exact .cons ho hv trivial hs h hf fun s' hs' h' _ hf' => ih hvs s' hs' h' hf'
  | embedding f key location written hst _ _ ih =>
    intro s hs h hf
    obtain ⟨hv, hvs⟩ := List.forall_mem_cons.1 hvs
    exact .cons ho hv hst hs h hf fun s' hs' h' _ hf' => ih hvs s' hs' h' hf'
  | @labeled f hd body rest entry inner _ _ hst hi he _ _ ihb ihr =>
    intro s hs h hf
    obtain ⟨hv, hvs⟩ := List.forall_mem_cons.1 hvs
    obtain ⟨hbody, hrest⟩ := List.forall_mem_append.1 hvs
    refine .cons ho hv ⟨hst, hi, he⟩ hs h hf fun s₁ hs₁ h₁ hvisit hf₁ => ?_
    have hinner : s₁.Ranged d inner := by
      cases hvisit with
      | heading _ _ _ _ _ _ _ _ _ hl =>
        refine hf.labeled hl ?_
        rw [hs.options]
        exact hi.keeps hs fun _ _ => IsSubRange.alike
    exact (ihb hbody s₁ hs₁ h₁ hinner).append fun s₂ hs₂ h₂ hg => ihr hrest s₂ hs₂ h₂ (hg f hf₁)
  | expansion f key location block tag arguments hst hi _ _ ihb ihr =>
    intro s hs h hf
    obtain ⟨hv, hvs⟩ := List.forall_mem_cons.1 hvs
    obtain ⟨hbody, hrest⟩ := List.forall_mem_append.1 hvs
    refine .cons ho hv ⟨⟨_, hst⟩, hi⟩ hs h hf fun s₁ hs₁ h₁ _ hf₁ => ?_
    have hinner := hf₁.enter (hi.keeps hs₁ fun _ _ => IsBlock.alike)
    exact (ihb hbody s₁ hs₁ h₁ hinner).append fun s₂ hs₂ h₂ hg => ihr hrest s₂ hs₂ h₂ (hg f hf₁)

/-! ## Documents -/

/-- The ranges that a document asks for are opened before its visits. -/
theorem openRanges_serves (hp : Prepared c W s₀) (h : s₀.Steady s) {info : DocumentInfo}
    (hd : s.info? d = some info) : Ends ResolveError.External (openRanges d info) s fun _ s' =>
      s₀.Serves d s' := by
  obtain ⟨info₀, hinfo₀, heq⟩ := h.progress.info_of hd
  obtain ⟨root, hroot, -, hmem⟩ := hp.root d info₀ hinfo₀
  have hown : info.root = some root := by rw [heq, hroot]
  refine openRanges_ends (J := fun pre t => s₀.Steady t ∧
    ∀ typ ∈ pre, (t.rangeFor? root typ).isSome) (fun pre typ t location separator rule => ?_)
    (fun pre typ t ⟨ht, hpre⟩ hsome => ⟨ht, ?_⟩) (fun t ⟨ht, hall⟩ => ⟨ht.setActive _, ?_⟩)
    ⟨h, by simp⟩
  · rintro ⟨ht, hpre⟩ htyp hnone hrule
    rw [heq] at htyp hnone hrule ⊢
    refine ⟨ht.withRange hp hinfo₀ htyp hnone hrule, fun typ' htyp' => ?_⟩
    obtain ⟨old, hold⟩ : ∃ old, t.roots.lookup root = some old := by
      refine Table.mem_keys_iff.1 ?_
      rw [ht.progress.root_keys]
      exact hmem
    change Option.isSome (rangeFor? (t.withRange (info₀.root.getD d) typ _ location separator rule)
      root typ')
    rw [rangeFor?, lookup_roots_withRange, hroot, Option.getD_some, if_pos rfl, hold,
      Option.map_some, Option.bind_some, List.find?_append]
    rcases List.mem_append.1 htyp' with htyp' | htyp'
    · have hsome := hpre typ' htyp'
      rw [rangeFor?, hold, Option.bind_some] at hsome
      rw [Option.isSome_or, hsome, Bool.true_or]
    · cases List.mem_singleton.1 htyp'
      simp
  · rw [hown, Option.getD_some] at hsome
    intro typ' htyp'
    rcases List.mem_append.1 htyp' with htyp' | htyp'
    · exact hpre typ' htyp'
    · exact List.mem_singleton.1 htyp' ▸ hsome
  · rintro typ ⟨info', hinfo', htyp⟩
    cases hinfo₀.symm.trans hinfo'
    obtain ⟨handedRanges, ht'⟩ := ht.progress.info d info₀ hinfo₀
    obtain ⟨e, he⟩ := Option.isSome_iff_exists.1 (hall typ (by rw [heq]; exact htyp))
    change Option.isSome (t.documentRange? d typ)
    unfold documentRange?
    rw [ht']
    simp only [Option.bind_eq_bind, Option.bind_some, hroot, he]
    split <;> rfl

/-- A document is claimed. -/
theorem claimVisits_ends (hp : Prepared c W s₀) (hsupplied : s₀.Supplied (W.flatMap Prod.snd))
    (h : s₀.Steady s) (d : String) :
    Ends ResolveError.External (claimVisits W d) s fun _ s' => s₀.Steady s' := by
  unfold claimVisits
  rw [Ends.bind_iff, Ends.get_iff]
  cases hinfo : s.info? d with
  | none => exact h
  | some info =>
    dsimp only
    rw [Ends.bind_iff]
    refine (openRanges_serves hp h hinfo).mono fun _ s₁ h₁ => ?_
    obtain ⟨info₀, hinfo₀, -⟩ := h.progress.info_of hinfo
    obtain ⟨vs, hw⟩ := hp.exists_walk hinfo₀
    rw [hp.lookup_walk hw, Option.getD_some]
    obtain ⟨info₀', hinfo₀', hwalk, -⟩ := hp.walk d vs hw
    cases hinfo₀.symm.trans hinfo₀'
    have htop := (hp.info d info₀ hinfo₀).2.1
    obtain ⟨frame, hframe, -, hdoc, -, hkind⟩ := (htop.keeps h₁.progress.toKeeps rfl rfl).frame
    have hmem : ∀ v ∈ vs, v ∈ W.flatMap Prod.snd := fun v hv =>
      List.mem_flatMap.2 ⟨_, hw, hv⟩
    refine Ends.mono (visits_ends hsupplied.ordered hwalk (fun v hv =>
      ⟨hsupplied.sighted v (hmem v hv), hsupplied.asked v (hmem v hv), ?_⟩)
      s₁ h₁.progress.toKeeps h₁ (.top frame hframe hdoc hkind))
      fun _ s₂ ⟨_, h₂, _⟩ => h₂.toSteady
    obtain ⟨frame', hframe', hdoc'⟩ := (hwalk.belongs htop.belongs v hv).frame
    exact (documentOf_eq hframe').trans hdoc'

/-- All documents are claimed. -/
theorem claimAll_ends (hp : Prepared c W s₀) (hsupplied : s₀.Supplied (W.flatMap Prod.snd)) :
    Ends ResolveError.External (s₀.order.forM (claimVisits W)) s₀ fun _ s => s₀.Steady s :=
  Ends.forM (fun d _ _ h => claimVisits_ends hp hsupplied h d) (.start hp)

/-! ## Labels -/

/-- All entries have ranges with rules. -/
def Ruled (ranges : Array Range) (entries : List RangeEntry) : Prop :=
  ∀ e ∈ entries, ∃ r, ranges[e.range.index]? = some r ∧ r.rule.isSome

theorem Ruled.exists_createLabels {entries : List RangeEntry} {n : Numbering}
    (h : Ruled n.layout.ranges entries) {e : RangeEntry} (he : e ∈ entries) :
    ∃ n', n.createLabels e.range none = .ok n' ∧ n'.layout.ranges = n.layout.ranges := by
  obtain ⟨r, hr, hrule⟩ := h e he
  obtain ⟨rule, hrule⟩ := Option.isSome_iff_exists.1 hrule
  have hr : n.layout.range? e.range = some r := hr
  have hl : n.layout.createLabels e.range none = .ok (n.layout.bindFrom (n.layout.slots.size + 1)
      r.separator (rule.withLevel r.weight) none r.first) := by
    unfold Layout.createLabels
    simp [hr, Range.ruleAtTop?, hrule]
  exact ⟨{ n with layout := _ }, by rw [Numbering.createLabels, hl]; rfl,
    (Layout.createLabels_relabeled hl).ranges⟩

/-- Binding labels leaves ranges and roots. -/
theorem bindLabels_ends {entries : List RangeEntry} (fuel : Nat) (trail : Trail)
    (done : List String) {entry : RangeEntry} (h : Ruled s.numbering.layout.ranges entries)
    (he : entry ∈ entries) (ht : trail.entries ⊆ entries.map RangeEntry.typ)
    (hfuel : entries.length < fuel + trail.entries.length) :
    Ends ResolveError.External (bindLabels entries fuel trail done entry) s fun _ s' =>
      s'.numbering.layout.ranges = s.numbering.layout.ranges ∧ s'.roots = s.roots := by
  induction fuel generalizing trail done entry s with
  | zero =>
    have hle := length_le_of_subset ht
    omega
  | succ fuel ih =>
    have hlabels : ∀ t : Resolution,
        t.numbering.layout.ranges = s.numbering.layout.ranges → ∃ n,
          t.numbering.createLabels entry.range none = .ok n ∧
          n.layout.ranges = s.numbering.layout.ranges := by
      intro t ht
      obtain ⟨n, hn, hkept⟩ := Ruled.exists_createLabels (ht ▸ h) he
      exact ⟨n, hn, hkept.trans ht⟩
    unfold bindLabels
    dsimp only
    split
    · exact ⟨rfl, rfl⟩
    rw [Ends.bind_iff]
    refine (followMaster_ends he ht).mono ?_
    rintro trail' _ ⟨rfl, ht', hlen⟩
    cases entry.master with
    | none =>
      dsimp only
      obtain ⟨n, hn, hkept⟩ := hlabels _ rfl
      rw [Ends.bind_iff, Ends.pure_iff, Ends.bind_iff, Ends.get_iff, hn]
      exact ⟨hkept, rfl⟩
    | some master =>
      dsimp only
      rw [Ends.bind_iff]
      refine masterEntry_ends.mono ?_
      rintro entry' _ ⟨rfl, he'⟩
      rw [Ends.bind_iff]
      refine (ih trail' _ h he' ht' (by omega)).mono ?_
      rintro done' t ⟨hranges, hroots⟩
      obtain ⟨n, hn, hkept⟩ := hlabels t hranges
      rw [Ends.bind_iff, Ends.get_iff, hn]
      exact ⟨hkept, hroots⟩

theorem bindRoots_ends (h : s₀.Steady s) (roots : List String) :
    Ends ResolveError.External (bindRoots roots) s fun _ s' => ∃ P, s.Bound s' P := by
  have hends : Ends ResolveError.External (bindRoots roots) s fun _ s' =>
      s'.numbering.layout.ranges = s.numbering.layout.ranges ∧ s'.roots = s.roots := by
    unfold bindRoots
    refine Ends.forM (fun root _ t ht => ?_) ⟨rfl, rfl⟩
    rw [Ends.bind_iff, Ends.get_iff]
    dsimp only
    rw [ht.2, Ends.bind_iff]
    cases hlookup : s.roots.lookup root with
    | none => exact ht
    | some entries =>
      rw [Option.getD_some]
      refine Ends.mono (Ends.foldlM (J := fun _ _ t =>
        t.numbering.layout.ranges = s.numbering.layout.ranges ∧ t.roots = s.roots)
        (fun pre entry post done t hsplit ht => ?_) ht) fun _ _ h => (Ends.pure_iff _).2 h
      refine (bindLabels_ends _ _ done ?_ (by simp [← hsplit]) (List.nil_subset _)
        (Nat.lt_succ_self _)).mono fun _ t' h' => ⟨h'.1.trans ht.1, h'.2.trans ht.2⟩
      intro e he
      obtain ⟨r, -, -, rule, hr, -, -, -, -, -, hrule, -⟩ := h.configured root entries e hlookup he
      exact ⟨r, ht.1 ▸ hr, by rw [hrule]; rfl⟩
  exact (hends.inspect (bindRoots_spec h.distinct h.sound roots)).mono fun _ s' h => ⟨_, h.1⟩

/-- Slots are claimed, and labels are bound to them. -/
theorem resolveRanges_ends (hp : Prepared c W s₀) (hsupplied : s₀.Supplied (W.flatMap Prod.snd)) :
    Ends ResolveError.External resolveRanges s₀ fun _ s =>
      ∃ s₁ P, s₀.Steady s₁ ∧ s₁.Bound s P := by
  refine resolveRanges_of_order hp (.inr ⟨fun root _ => hp.bounded root, hsupplied.ordered⟩) ?_
  exact (claimAll_ends hp hsupplied).mono fun _ s₁ h₁ _ _ _ =>
    (bindRoots_ends h₁ s₀.roots.keys).mono fun _ s ⟨P, hb⟩ => ⟨s₁, P, h₁, hb⟩

end Run

end Folio
