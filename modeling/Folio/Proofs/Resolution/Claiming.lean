import Folio.Proofs.Numbering.Growth
import Folio.Proofs.Resolution.Order

/-!
# The steps of claiming

What each visit of the claiming phase does to a resolution, as an equation: `labelHeading_spec` for
labeled nodes, `labelEmbedding_spec` for embeddings, `labelText_spec` for texts. `labelVisit` is the
part of a visit that does not go into other nodes.
-/

namespace Folio

open Resolution

namespace Resolution

/-- The range in use for a label type, as seen from a frame. -/
def rangeIn? (s : Resolution) (f : FrameId) (typ : String) : Option RangeId :=
  match s.countingFrame? f typ with
  | some (_, { kind := .subRange _ _ range, .. }) => range
  | some (_, { kind := .document _, document, .. }) => s.documentRange? document typ
  | _ => none

theorem rangeIn?_congr {s s' : Resolution} (hf : s'.frames = s.frames)
    (hd : s'.documents = s.documents) (hr : s'.roots = s.roots) (f : FrameId) (typ : String) :
    s'.rangeIn? f typ = s.rangeIn? f typ := by
  have hrange : s'.documentRange? = s.documentRange? := by
    funext d t
    simp [documentRange?, info?, rangeFor?, hd, hr]
  unfold rangeIn?
  rw [countingFrame?_congr hf, hrange]

theorem rangeFor?_eq_some {s : Resolution} {root typ : String} {e : RangeEntry}
    (h : s.rangeFor? root typ = some e) :
    ∃ entries, s.roots.lookup root = some entries ∧ e ∈ entries ∧ e.typ = typ := by
  obtain ⟨entries, hentries, hfind⟩ := Option.bind_eq_some_iff.1 h
  exact ⟨entries, hentries, List.mem_of_find?_eq_some hfind, by simpa using List.find?_some hfind⟩

/-- A document uses the range that was handed over to it, or else that of its root. -/
theorem documentRange?_eq_some {s : Resolution} {document typ : String} {range : RangeId}
    (h : s.documentRange? document typ = some range) :
    ∃ info, s.info? document = some info ∧ (info.handedRanges.lookup typ = some range ∨
      info.handedRanges.lookup typ = none ∧ ∃ root e, info.root = some root ∧
        s.rangeFor? root typ = some e ∧ e.range = range) := by
  obtain ⟨info, hinfo, h⟩ := Option.bind_eq_some_iff.1 h
  refine ⟨info, hinfo, ?_⟩
  cases hl : info.handedRanges.lookup typ with
  | some handle =>
    rw [hl] at h
    exact .inl h
  | none =>
    rw [hl] at h
    obtain ⟨root, hroot, h⟩ := Option.bind_eq_some_iff.1 h
    obtain ⟨e, he, h⟩ := Option.bind_eq_some_iff.1 h
    exact .inr ⟨rfl, root, e, hroot, he, Option.some.inj h⟩

/-- A node uses the range of the labeled node that it lies in, or else that of the document. -/
theorem rangeIn?_eq_some {s : Resolution} {f : FrameId} {typ : String} {range : RangeId}
    (h : s.rangeIn? f typ = some range) : ∃ owner frame,
      s.countingFrame? f typ = some (owner, frame) ∧ s.frame? owner = some frame ∧
      ((∃ ids, frame.kind = .subRange typ ids (some range)) ∨
        frame.kind.IsDocument ∧ s.documentRange? frame.document typ = some range) := by
  unfold rangeIn? at h
  split at h
  next owner parent document scope t ids range' hc =>
    obtain ⟨hf, ht⟩ := countingFrame?_eq_some hc
    subst h
    obtain rfl : t = typ := by simpa [FrameKind.counts] using ht
    exact ⟨owner, _, hc, hf, .inl ⟨ids, rfl⟩⟩
  next owner parent document scope ids hc =>
    exact ⟨owner, _, hc, (countingFrame?_eq_some hc).1, .inr ⟨trivial, h⟩⟩
  · simp at h

/-- The resolution after the targets of references in a text were noted. -/
structure Noted (s s' : Resolution) : Prop where
  same : s' = { s with states := s'.states }
  fixed_eq : ∀ scope key, s'.fixed? scope key = s.fixed? scope key

namespace Noted

variable {s s' s'' : Resolution}

theorem refl (s : Resolution) : s.Noted s := ⟨rfl, fun _ _ => rfl⟩

theorem trans (h : s.Noted s') (h' : s'.Noted s'') : s.Noted s'' :=
  ⟨by rw [h'.same, h.same], fun scope key => (h'.fixed_eq scope key).trans (h.fixed_eq scope key)⟩

end Noted

end Resolution

namespace Run

variable {s : Resolution}

theorem numberRange_iff {E : Prop} {f : FrameId} {typ : String} {location : Location}
    {Q : RangeId → Resolution → Prop} : After E (numberRange f typ location) s Q ↔
      (∀ range, s.rangeIn? f typ = some range → Q range s) ∧ (s.rangeIn? f typ = none → E) := by
  unfold numberRange
  rw [After.bind_iff, After.get_iff]
  exact orFail_iff

theorem labelTextWithin_spec (fuel : Nat) (f : FrameId) (body : InlineText) :
    After True (labelTextWithin fuel f body) s fun _ s' => s.Noted s' := by
  induction fuel generalizing f body s with
  | zero => exact trivial
  | succ fuel ih =>
    unfold labelTextWithin
    refine After.forM (I := fun s' => s.Noted s') (fun part _ s₁ h₁ => ?_) (.refl s)
    rcases part with text | ⟨key, aspect, link⟩ | ⟨key, name⟩ | name | tag
    · exact h₁
    · dsimp only
      rw [After.bind_iff, After.get_iff]
      split
      next link target hst =>
        rw [After.bind_iff, orFail_iff]
        refine ⟨fun target' _ => h₁.trans ⟨rfl, fun scope k => ?_⟩, fun _ => trivial⟩
        change (s₁.setState f key _).fixed? scope k = _
        rw [fixed?_setState]
        split
        next heq =>
          have hst' : s₁.stateIn? (s₁.scopeOf f) key = some (.reference link target) := hst
          rw [heq.1, heq.2, fixed?, hst']
          rfl
        · rfl
      · exact trivial
    · dsimp only
      rw [After.bind_iff]
      refine (valueState_spec f body.location key).mono ?_
      rintro ⟨inner, inside⟩ s₂ rfl
      exact (ih inner inside).mono fun _ _ h => h₁.trans h
    · exact h₁
    · exact h₁

theorem labelText_spec (f : FrameId) (body : InlineText) :
    After True (labelText f body) s fun _ s' => s.Noted s' := by
  unfold labelText
  rw [After.bind_iff, After.get_iff]
  exact labelTextWithin_spec _ f body

end Run

/-- The numbering after the rule for the ranges inside a node was set. -/
def Numbering.withNested (n : Numbering) (range : RangeId) : Option NestedRule → Numbering
  | none => n
  | some nested =>
    (if nested.level.isSome then n.setWeight range nested.level else n).setRule range
      nested.separator nested.rule

theorem Numbering.withNested_induction {P : Numbering → Prop} (n : Numbering) (range : RangeId)
    (nested : Option NestedRule) (h : P n) (hw : ∀ n weight, P n → P (n.setWeight range weight))
    (hr : ∀ n separator rule, P n → P (n.setRule range separator rule)) :
    P (n.withNested range nested) := by
  unfold withNested
  cases nested with
  | none => exact h
  | some nested =>
    dsimp only
    split
    · exact hr _ _ _ (hw _ _ h)
    · exact hr _ _ _ h

@[simp]
theorem Numbering.slots_withNested (n : Numbering) (range : RangeId) (nested : Option NestedRule) :
    (n.withNested range nested).layout.slots = n.layout.slots :=
  withNested_induction (P := fun m => m.layout.slots = n.layout.slots) n range nested rfl
    (fun _ _ h => h) fun _ _ _ h => h

theorem Layout.Sound.withNested {n : Numbering} (h : n.layout.Sound) (range : RangeId)
    (nested : Option NestedRule) : (n.withNested range nested).layout.Sound :=
  Numbering.withNested_induction (P := fun m => m.layout.Sound) n range nested h
    (fun _ _ h => h.setWeight _ _) fun _ _ _ h => h.setRule _ _ _

theorem Layout.Tidy.withNested {n : Numbering} (h : n.layout.Tidy) (range : RangeId)
    (nested : Option NestedRule) : (n.withNested range nested).layout.Tidy :=
  Numbering.withNested_induction (P := fun m => m.layout.Tidy) n range nested h
    (fun _ _ h => h.setWeight _ _) fun _ _ _ h => h.setRule _ _ _

theorem Layout.Growth.withNested (n : Numbering) (range : RangeId) (nested : Option NestedRule) :
    n.layout.Growth (n.withNested range nested).layout :=
  Numbering.withNested_induction (P := fun m => n.layout.Growth m.layout) n range nested (.refl _)
    (fun _ _ h => h.trans (.setWeight _ _ _)) fun _ _ _ h => h.trans (.setRule _ _ _ _)

/-- Only the range inside a node gets the rule for it. -/
theorem Numbering.range?_withNested (n : Numbering) (below : RangeId)
    (nested : Option NestedRule) {i : RangeId} (hi : i ≠ below) :
    (n.withNested below nested).layout.range? i = n.layout.range? i := by
  cases nested with
  | none => rfl
  | some nested =>
    unfold Numbering.withNested
    dsimp only
    split <;> simp [Numbering.range?_setRule, Numbering.range?_setWeight, hi]

/-- The rule for a range changes nothing else in it. -/
theorem Numbering.exists_range?_withNested (n : Numbering) (below : RangeId)
    (nested : Option NestedRule) {i : RangeId} {r : Range} (hr : n.layout.range? i = some r) :
    ∃ separator rule weight, (n.withNested below nested).layout.range? i =
      some { r with separator, rule, weight } := by
  cases nested with
  | none => exact ⟨_, _, _, hr⟩
  | some nested =>
    unfold Numbering.withNested
    dsimp only
    by_cases hi : i = below
    · split <;>
        simp only [Numbering.range?_setRule, Numbering.range?_setWeight, hi, if_true] <;>
        rw [← hi, hr] <;> exact ⟨_, _, _, rfl⟩
    · split <;>
        simp only [Numbering.range?_setRule, Numbering.range?_setWeight, hi, if_false] <;>
        exact ⟨_, _, _, hr⟩

/-- The frame inside a labeled node with the range for the nodes in it. -/
def FrameKind.withRange (range : RangeId) : FrameKind → FrameKind
  | .subRange typ ids _ => .subRange typ ids (some range)
  | other => other

theorem FrameKind.withRange_alike (range : RangeId) (k : FrameKind) : k.Alike (k.withRange range) := by
  cases k <;> simp [withRange, Alike]

namespace Resolution

/-- The abbreviation of a range. -/
def abbreviation (s : Resolution) (range : RangeId) : String :=
  ((s.numbering.layout.range? range).map Range.abbreviation).getD ""

/-- A labeled node has claimed a slot of a range and opened the range below it. -/
structure Labeled (s s' : Resolution) (f : FrameId) (h : Heading) (entry : EntryId)
    (inner : FrameId) (range : RangeId) (slot : SlotId) (below : RangeId) (n₁ n₂ : Numbering) :
    Prop where
  range_eq : s.rangeIn? f (h.typeIn s.options) = some range
  next : s.numbering.next range = .ok (slot, n₁)
  sub : n₁.sub range = .ok (below, n₂)
  same : s' = { s with
    states := s'.states
    numbering := n₂.withNested below h.nested
    registry := s.registry.modifyEntry entry fun e =>
      { e with slot := some slot, abbreviation := abbreviation { s with numbering := n₁ } range }
    frames := (s.modifyKind inner (.withRange below)).frames }
  fixed_eq : ∀ scope key, s'.fixed? scope key = s.fixed? scope key

/-- An embedding has claimed a slot of a range and handed it over to a document. -/
structure HandedOver (s s' : Resolution) (f : FrameId) (link : Link) (document : String)
    (info : DocumentInfo) (range handle : RangeId) (n : Numbering) : Prop where
  document_eq : s.documentFor? link = some document
  info_eq : s.info? document = some info
  range_eq : s.rangeIn? f s.options.sectionType = some range
  assign : s.numbering.assign range (Run.embeddedLevel info s.options.sectionType) =
    .ok (handle, n)
  same : s' = modifyInfo { s with numbering := n } document fun info =>
    { info with handedRanges := (s.options.sectionType, handle) :: info.handedRanges }

theorem Noted.rangeIn? {s s' : Resolution} (h : s.Noted s') (f : FrameId) (typ : String) :
    s'.rangeIn? f typ = s.rangeIn? f typ :=
  rangeIn?_congr (by rw [h.same]) (by rw [h.same]) (by rw [h.same]) f typ

end Resolution

namespace Run

variable {s : Resolution}

theorem labeledState_spec {f : FrameId} {h : Heading} {entry : EntryId} {inner : FrameId}
    (hs : s.Holds f h.key (.labeled entry inner)) :
    After True (labeledState f h) s fun p s' => s' = s ∧ p = (entry, inner) := by
  unfold labeledState
  rw [After.bind_iff, After.get_iff, hs.state?]
  exact ⟨rfl, rfl⟩

theorem setFrameRange_iff {E : Prop} {inner : FrameId} {below : RangeId}
    {Q : Unit → Resolution → Prop} : After E (setFrameRange inner below) s Q ↔
      Q () (s.modifyKind inner (.withRange below)) := by
  have : FrameKind.withRange below = fun kind => match kind with
      | .subRange typ ids _ => .subRange typ ids (some below)
      | other => other := by
    funext kind
    cases kind <;> rfl
  rw [this]
  exact After.modify_iff

theorem labelHeading_spec {f : FrameId} {h : Heading} {entry : EntryId} {inner : FrameId}
    (hs : s.Holds f h.key (.labeled entry inner)) :
    After True (labelHeading f h) s fun inner' s' => inner' = inner ∧
      ∃ range slot below n₁ n₂, s.Labeled s' f h entry inner range slot below n₁ n₂ := by
  unfold labelHeading
  rw [After.bind_iff]
  refine (labeledState_spec hs).mono fun p s₀ hp => ?_
  obtain ⟨hs₀, rfl⟩ := hp
  rw [hs₀, After.bind_iff]
  refine (labelText_spec f h.title).mono fun _ s₁ h₁ => ?_
  have hopt : s₁.options = s.options := by rw [h₁.same]
  have hn : s₁.numbering = s.numbering := by rw [h₁.same]
  rw [After.bind_iff, After.get_iff]
  dsimp only
  rw [hopt, After.bind_iff, numberRange_iff, h₁.rangeIn?]
  refine ⟨fun range hrange => ?_, fun _ => trivial⟩
  rw [After.bind_iff, numbering_iff, hn]
  refine ⟨fun slot n₁ hnext => ?_, fun _ _ => trivial⟩
  rw [After.bind_iff]
  unfold bindSlot
  rw [After.modify_iff, After.bind_iff, numbering_iff]
  refine ⟨fun below n₂ hsub => ?_, fun _ _ => trivial⟩
  have hsub : n₁.sub range = .ok (below, n₂) := hsub
  have hsame := h₁.same
  cases s₁
  cases hsame
  cases hnested : h.nested with
  | none =>
    rw [After.bind_iff, setFrameRange_iff]
    refine ⟨rfl, range, slot, below, n₁, n₂, hrange, hnext, hsub, ?_, fun scope key => h₁.fixed_eq scope key⟩
    rw [hnested]
    rfl
  | some nested =>
    rw [After.bind_iff]
    unfold setNestedRule
    rw [After.modify_iff, After.bind_iff, setFrameRange_iff]
    refine ⟨rfl, range, slot, below, n₁, n₂, hrange, hnext, hsub, ?_, fun scope key => h₁.fixed_eq scope key⟩
    rw [hnested]
    rfl

theorem labelEmbedding_spec {f : FrameId} {key : NodeKey} {location : Location} {link : Link}
    (hs : s.Holds f key (.embedding link)) :
    After True (labelEmbedding f key location) s fun _ s' =>
      ∃ document info range handle n, s.HandedOver s' f link document info range handle n := by
  unfold labelEmbedding
  rw [After.bind_iff, After.get_iff, hs.state?]
  dsimp only
  rw [After.bind_iff, After.pure_iff, After.bind_iff, orFail_iff]
  refine ⟨fun _ _ => ?_, fun _ => trivial⟩
  rw [After.bind_iff, orFail_iff]
  refine ⟨fun document hdocument => ?_, fun _ => trivial⟩
  rw [After.bind_iff, numberRange_iff]
  refine ⟨fun range hrange => ?_, fun _ => trivial⟩
  rw [After.bind_iff, After.get_iff]
  cases hinfo : s.info? document with
  | none =>
    obtain ⟨address, -, ha⟩ := Option.bind_eq_some_iff.1 hdocument
    split at ha
    next h =>
      cases ha
      simp [hinfo] at h
    · simp at ha
  | some info =>
    dsimp only
    rw [After.bind_iff, numbering_iff]
    refine ⟨fun handle n hassign => ?_, fun _ _ => trivial⟩
    rw [After.modify_iff]
    exact ⟨document, info, range, handle, n, hdocument, hinfo, hrange, hassign, rfl⟩

end Run

/-! ## The visits of the phase -/

namespace Run

/-- What claiming does at a visit, apart from the visits inside. -/
def labelVisit : Visit → Run Unit
  | .text f content => labelText f content
  | .heading f h _ _ => do
    let _ ← labelHeading f h
  | .embedding f key location _ => labelEmbedding f key location
  | .expansion f key location _ => do
    let _ ← expansionState f key location
  | .term f _ _ content => labelText f content

end Run

namespace Resolution

/-- A visit of the claiming phase changes a resolution. -/
inductive Visited (s s' : Resolution) : Visit → Prop
  | text (f : FrameId) (content : InlineText) (h : s.Noted s') : Visited s s' (.text f content)
  | heading (f : FrameId) (h : Heading) (entry : EntryId) (inner : FrameId) (range : RangeId)
    (slot : SlotId) (below : RangeId) (n₁ n₂ : Numbering)
    (hl : s.Labeled s' f h entry inner range slot below n₁ n₂) :
    Visited s s' (.heading f h entry inner)
  | embedding (f : FrameId) (key : NodeKey) (location : Location) (link : Link) (document : String)
    (info : DocumentInfo) (range handle : RangeId) (n : Numbering)
    (hh : s.HandedOver s' f link document info range handle n) :
    Visited s s' (.embedding f key location link)
  | expansion (f : FrameId) (key : NodeKey) (location : Location) (inner : FrameId)
    (h : s' = s) : Visited s s' (.expansion f key location inner)
  | term (f : FrameId) (key : NodeKey) (location : Location) (content : InlineText)
    (h : s.Noted s') : Visited s s' (.term f key location content)

/-- What a visit finds when it comes. -/
def Ready (s : Resolution) : Visit → Prop
  | .heading f h entry inner => s.Holds f h.key (.labeled entry inner) ∧
    s.Inside f inner (IsSubRange (h.typeIn s.options)) ∧
    s.Registered entry (s.documentOf f) (h.typeIn s.options)
  | .embedding f key _ link => s.Holds f key (.embedding link)
  | .expansion f key _ inner => (∃ body, s.Holds f key (.expansion inner body)) ∧
    s.Inside f inner IsBlock
  | _ => True

theorem Ready.keeps {s s' : Resolution} {v : Visit} (h : s.Ready v) (hs : s.Keeps s') :
    s'.Ready v := by
  cases v with
  | text | term => trivial
  | heading f h' entry inner =>
    obtain ⟨hst, hi, he⟩ := h
    obtain ⟨outer, -, ho, -⟩ := id hi
    rw [Ready, hs.options, hs.documentOf_eq ho]
    exact ⟨hst.keeps hs, hi.keeps hs fun _ _ => IsSubRange.alike, he.keeps hs⟩
  | embedding f key location link => exact Holds.keeps h hs
  | expansion f key location inner =>
    exact ⟨h.1.imp fun _ hst => hst.keeps hs, h.2.keeps hs fun _ _ => IsBlock.alike⟩

theorem Noted.keeps {s s' : Resolution} (h : s.Noted s') : s.Keeps s' := by
  refine ⟨by rw [h.same], fun f frame hf => ⟨frame, ?_, .refl frame⟩, fun e entry he => ⟨entry, ?_, rfl, rfl⟩,
    fun scope key state hst => (h.fixed_eq scope key).trans hst⟩
  · rw [h.same]
    exact hf
  · rw [h.same]
    exact he

theorem Visited.keeps {s s' : Resolution} {v : Visit} (h : s.Visited s' v) : s.Keeps s' := by
  cases h with
  | text _ _ h | term _ _ _ _ h => exact h.keeps
  | expansion _ _ _ _ h => exact h ▸ .refl s
  | embedding f key location link document info range handle n hh =>
    rw [hh.same]
    exact ⟨rfl, (Keeps.refl s).frame, (Keeps.refl s).entry, (Keeps.refl s).fixed⟩
  | heading f h' entry inner range slot below n₁ n₂ hl =>
    refine ⟨by rw [hl.same], fun g frame hg => ?_, fun e en he => ?_,
      fun scope key state hst => (hl.fixed_eq scope key).trans hst⟩
    · have hframe : s'.frame? g = (s.modifyKind inner (.withRange below)).frame? g := by
        rw [hl.same]
        rfl
      rw [hframe, frame?_modifyKind, hg]
      split
      · exact ⟨_, rfl, rfl, rfl, rfl, FrameKind.withRange_alike below frame.kind⟩
      · exact ⟨frame, rfl, .refl frame⟩
    · have hentry : s'.registry.entryAt? e = (s.registry.modifyEntry entry fun e =>
          { e with slot := some slot, abbreviation := abbreviation { s with numbering := n₁ } range }
          ).entryAt? e := by rw [hl.same]
      rw [hentry, Registry.entryAt?_modifyEntry, he]
      split
      · exact ⟨_, rfl, rfl, rfl⟩
      · exact ⟨en, rfl, rfl, rfl⟩

end Resolution

theorem Walk.ready {s : Resolution} {f : FrameId} {ns : List Node} {vs : List Visit}
    (h : Walk s f ns vs) : ∀ v ∈ vs, s.Ready v := by
  induction h with
  | nil => simp
  | text _ _ _ ih | term _ _ _ _ _ _ ih => exact List.forall_mem_cons.2 ⟨trivial, ih⟩
  | labeled f h hst hi he _ _ ihb ihr =>
    refine List.forall_mem_cons.2 ⟨⟨hst, hi, he⟩, fun v hv => ?_⟩
    exact (List.mem_append.1 hv).elim (ihb v) (ihr v)
  | embedding _ _ _ _ hst _ _ ih => exact List.forall_mem_cons.2 ⟨hst, ih⟩
  | expansion _ _ _ _ _ _ hst hi _ _ ihb ihr =>
    refine List.forall_mem_cons.2 ⟨⟨⟨_, hst⟩, hi⟩, fun v hv => ?_⟩
    exact (List.mem_append.1 hv).elim (ihb v) (ihr v)

namespace Run

variable {s : Resolution}

theorem labelVisit_spec {v : Visit} (h : s.Ready v) :
    After True (labelVisit v) s fun _ s' => s.Visited s' v := by
  cases v with
  | text f content => exact (labelText_spec f content).mono fun _ s' h => .text f content h
  | heading f h' entry inner =>
    unfold labelVisit
    rw [After.bind_iff]
    refine (labelHeading_spec h.1).mono ?_
    rintro inner' s' ⟨-, range, slot, below, n₁, n₂, hl⟩
    exact .heading f h' entry inner range slot below n₁ n₂ hl
  | embedding f key location link =>
    refine (labelEmbedding_spec h).mono ?_
    rintro _ s' ⟨document, info, range, handle, n, hh⟩
    exact .embedding f key location link document info range handle n hh
  | expansion f key location inner =>
    obtain ⟨⟨body, hst⟩, -⟩ := h
    unfold labelVisit expansionState
    rw [After.bind_iff, After.bind_iff, After.get_iff, hst.state?]
    exact .expansion f key location inner rfl
  | term f key location content =>
    exact (labelText_spec f content).mono fun _ s' h => .term f key location content h

end Run

end Folio
