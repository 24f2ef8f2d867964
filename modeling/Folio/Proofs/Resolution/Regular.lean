import Folio.Proofs.Numbering.Names
import Folio.Proofs.Resolution.Orderly

/-!
# Ranges of the right type

The range in use for a label type counts labels of that type (`Resolution.Typed`), and ranges at the
top have the rule that some document configures, or the one for types that nobody configures
(`Resolution.Configured`). Where a label type has no rules inside of nodes and no level for embedded
documents, its ranges count plainly. `Resolution.Regular` collects these invariants of claiming.
-/

namespace Folio

open Resolution

namespace Resolution

/-- A visit leaves what ranges were made with. -/
theorem Visited.settings {s s' : Resolution} {v : Visit} (h : s.Visited s' v)
    (hs : s.numbering.layout.Sound) {i : RangeId} {r : Range}
    (hr : s.numbering.layout.range? i = some r) :
    ∃ r', s'.numbering.layout.range? i = some r' ∧ r.SameSettings r' := by
  cases h with
  | text _ _ h | term _ _ _ _ h =>
    rw [h.same]
    exact ⟨r, hr, .refl r⟩
  | expansion _ _ _ _ h => exact ⟨r, h ▸ hr, .refl r⟩
  | embedding _ _ _ _ _ _ _ _ _ hh =>
    rw [hh.numbering_eq]
    exact Range.SameSettings.assign hs hh.assign hr
  | heading f h entry inner range slot below n₁ n₂ hl =>
    rw [hl.numbering_eq]
    obtain ⟨r₁, hr₁, h₁⟩ := Range.SameSettings.next hs hl.next hr
    obtain ⟨r₂, hr₂, h₂⟩ := Range.SameSettings.sub hl.sub hr₁
    refine ⟨r₂, ?_, h₁.trans h₂⟩
    obtain ⟨-, -, -, -, -, -, -, hbelow, -⟩ := Numbering.sub_cases hl.sub
    rw [Numbering.range?_withNested _ _ _ (by rintro rfl; simp [hbelow] at hr₁), hr₂]

/-- The ranges in use for a label type are of that type. -/
structure Typed (s : Resolution) : Prop where
  inner : ∀ g frame typ ids range, s.frame? g = some frame →
    frame.kind = .subRange typ ids (some range) →
    ∃ r, s.numbering.layout.range? range = some r ∧ r.typ = typ
  entry : ∀ root entries e, s.roots.lookup root = some entries → e ∈ entries →
    ∃ r, s.numbering.layout.range? e.range = some r ∧ r.typ = e.typ
  handed : ∀ d info typ range, s.info? d = some info → (typ, range) ∈ info.handedRanges →
    ∃ r, s.numbering.layout.range? range = some r ∧ r.typ = typ

namespace Typed

variable {s s' : Resolution}

theorem of_rangeIn? (h : s.Typed) {f : FrameId} {typ : String} {range : RangeId}
    (hr : s.rangeIn? f typ = some range) :
    ∃ r, s.numbering.layout.range? range = some r ∧ r.typ = typ := by
  obtain ⟨owner, frame, -, hf, ⟨ids, hk⟩ | ⟨-, hr⟩⟩ := rangeIn?_eq_some hr
  · exact h.inner owner frame typ ids range hf hk
  · obtain ⟨info, hinfo, hl | ⟨-, root, e, -, he, rfl⟩⟩ := documentRange?_eq_some hr
    · exact h.handed _ info typ range hinfo (Table.mem_of_lookup hl)
    · obtain ⟨entries, hentries, hmem, rfl⟩ := rangeFor?_eq_some he
      exact h.entry root entries e hentries hmem

/-- Ranges keep their types. -/
theorem grow (h : s.Typed)
    (hkept : ∀ i r, s.numbering.layout.range? i = some r →
      ∃ r', s'.numbering.layout.range? i = some r' ∧ r.SameSettings r')
    (hroots : s'.roots = s.roots)
    (hinner : ∀ g frame typ ids range, s'.frame? g = some frame →
      frame.kind = .subRange typ ids (some range) → s.frame? g = some frame ∨
      ∃ r, s'.numbering.layout.range? range = some r ∧ r.typ = typ)
    (hhanded : ∀ d info typ range, s'.info? d = some info → (typ, range) ∈ info.handedRanges →
      (∃ info, s.info? d = some info ∧ (typ, range) ∈ info.handedRanges) ∨
      ∃ r, s'.numbering.layout.range? range = some r ∧ r.typ = typ) : s'.Typed := by
  have hold : ∀ {i typ}, (∃ r, s.numbering.layout.range? i = some r ∧ r.typ = typ) →
      ∃ r, s'.numbering.layout.range? i = some r ∧ r.typ = typ := by
    rintro i typ ⟨r, hr, ht⟩
    obtain ⟨r', hr', hsame⟩ := hkept i r hr
    exact ⟨r', hr', hsame.typ.trans ht⟩
  refine ⟨fun g frame typ ids range hg hk => ?_, fun root entries e hr he => ?_,
    fun d info typ range hd hm => ?_⟩
  · rcases hinner g frame typ ids range hg hk with hg | hr
    · exact hold (h.inner g frame typ ids range hg hk)
    · exact hr
  · exact hold (h.entry root entries e (hroots ▸ hr) he)
  · rcases hhanded d info typ range hd hm with ⟨info, hd, hm⟩ | hr
    · exact hold (h.handed d info typ range hd hm)
    · exact hr

theorem withRange (h : s.Typed) (root typ : String) (settings : Option TypeSettings)
    (location : Location) (separator : String) (rule : LabelRule) :
    (s.withRange root typ settings location separator rule).Typed := by
  have hrange := range?_withRange s root typ settings location separator rule
  have hold : ∀ {i t}, (∃ r, s.numbering.layout.range? i = some r ∧ r.typ = t) → ∃ r,
      (s.withRange root typ settings location separator rule).numbering.layout.range? i =
        some r ∧ r.typ = t := by
    rintro i t ⟨r, hr, ht⟩
    exact ⟨r, range?_withRange_of_some hr, ht⟩
  refine ⟨fun g frame t ids range hg hk => hold (h.inner g frame t ids range hg hk),
    fun r entries e hr he => ?_,
    fun d info t range hd hm => hold (h.handed d info t range hd hm)⟩
  rw [lookup_roots_withRange] at hr
  split at hr
  · obtain ⟨old, hold', rfl⟩ := Option.map_eq_some_iff.1 hr
    rcases List.mem_append.1 he with he | he
    · exact hold (h.entry r old e hold' he)
    · cases List.mem_singleton.1 he
      exact ⟨_, by rw [hrange, if_pos rfl], rfl⟩
  · exact hold (h.entry r entries e hr he)

/-- The range that a labeled node opens is of its type. -/
theorem below_typ (h : s.Typed) (hs : s.numbering.layout.Sound) {f : FrameId} {hd : Heading}
    {entry : EntryId} {inner : FrameId} {range : RangeId} {slot : SlotId} {below : RangeId}
    {n₁ n₂ : Numbering} (hl : s.Labeled s' f hd entry inner range slot below n₁ n₂) :
    ∃ r, n₂.layout.range? below = some r ∧ r.typ = hd.typeIn s.options := by
  obtain ⟨r, hr, ht⟩ := h.of_rangeIn? hl.range_eq
  obtain ⟨r₁, hr₁, h₁⟩ := Range.SameSettings.next hs hl.next hr
  obtain ⟨u, slot, t, hu, -, -, -, rfl, -, ho⟩ := Numbering.sub_cases hl.sub
  cases hr₁.symm.trans hu
  have hbelow := ho.range n₁.layout.freshRange
  rw [if_pos rfl] at hbelow
  exact ⟨_, hbelow, h₁.typ.trans ht⟩

theorem visit (h : s.Typed) (hs : s.numbering.layout.Sound) {v : Visit} (hready : s.Ready v)
    (hv : s.Visited s' v) : s'.Typed := by
  refine h.grow (fun i r hr => hv.settings hs hr) hv.roots ?_ ?_
  · intro g frame typ ids range hg hk
    cases hv with
    | text _ _ hn | term _ _ _ _ hn =>
      rw [hn.same] at hg
      exact .inl hg
    | expansion _ _ _ _ heq => exact .inl (heq ▸ hg)
    | embedding f key location link document info range handle n hh =>
      rw [hh.same] at hg
      exact .inl hg
    | heading f h' entry inner range slot below n₁ n₂ hl =>
      rcases hl.frame_cases hready.2.1 hg hk with hg | ⟨rfl, rfl, -⟩
      · exact .inl hg
      · obtain ⟨r, hr, ht⟩ := h.below_typ hs hl
        obtain ⟨_, _, _, hr'⟩ := Numbering.exists_range?_withNested n₂ _ h'.nested hr
        rw [← hl.numbering_eq] at hr'
        exact .inr ⟨_, hr', ht⟩
  · intro d info typ range hd hm
    cases hv with
    | text _ _ hn | term _ _ _ _ hn =>
      rw [hn.same] at hd
      exact .inl ⟨info, hd, hm⟩
    | expansion _ _ _ _ heq => exact .inl ⟨info, heq ▸ hd, hm⟩
    | heading f h' entry inner range slot below n₁ n₂ hl =>
      rw [hl.same] at hd
      exact .inl ⟨info, hd, hm⟩
    | embedding f key location link document info' range handle n hh =>
      refine (hh.handed_cases hd hm).imp_right ?_
      rintro ⟨-, rfl, rfl⟩
      obtain ⟨r, hr, ht⟩ := h.of_rangeIn? hh.range_eq
      obtain ⟨u, hu, hhandle⟩ := Numbering.range?_handle hh.assign
      cases hr.symm.trans hu
      rw [← hh.numbering_eq] at hhandle
      exact ⟨_, hhandle, ht⟩

end Typed

/-- The range of an entry was made as some document below the root configures it. -/
def ConfiguredEntry (s₀ s : Resolution) (root : String) (e : RangeEntry) : Prop :=
  ∃ r d info rule, s.numbering.layout.range? e.range = some r ∧ r.parent = none ∧ r.typ = e.typ ∧
    s₀.info? d = some info ∧ info.root.getD d = root ∧
    Run.newRule s₀.options e.typ (info.document.settings.lookup e.typ) = .ok (r.separator, rule) ∧
    r.rule = some rule ∧
    e.master = (info.document.settings.lookup e.typ).bind TypeSettings.master

/-- The ranges of all entries were made as the documents configure them. -/
def Configured (s₀ s : Resolution) : Prop :=
  ∀ root entries e, s.roots.lookup root = some entries → e ∈ entries →
    s₀.ConfiguredEntry s root e

/-- Nodes set no rule for a label type, documents set no level for it when they are embedded, and
the type `unled` has no master. -/
structure Unset (W : List (String × List Visit)) (s₀ : Resolution) (unled typ : String) :
    Prop where
  nested : ∀ d vs f h entry inner, (d, vs) ∈ W → .heading f h entry inner ∈ vs →
    h.typeIn s₀.options = typ → h.nested = none
  level : typ = s₀.options.sectionType → ∀ d info, s₀.info? d = some info →
    Run.embeddedLevel info s₀.options.sectionType = none
  master : ∀ d info settings, s₀.info? d = some info →
    info.document.settings.lookup unled = some settings → settings.master = none

/-- Ranges are of the right types, and those of the type `typ` count plainly. -/
structure Regular (s₀ : Resolution) (unled typ : String) (s : Resolution) : Prop
    extends s₀.Underway s where
  ordered : s.numbering.layout.Ordered
  plain : s.numbering.layout.Plain typ
  led : s.numbering.Led unled
  typed : s.Typed
  configured : s₀.Configured s

theorem ConfiguredEntry.grow {s₀ s s' : Resolution} {root : String} {e : RangeEntry}
    (h : s₀.ConfiguredEntry s root e)
    (hkept : ∀ i r, s.numbering.layout.range? i = some r →
      ∃ r', s'.numbering.layout.range? i = some r' ∧ r.SameSettings r') :
    s₀.ConfiguredEntry s' root e := by
  obtain ⟨r, d, info, rule, hr, hp, ht, hinfo, hroot, hrule, hr', hm⟩ := h
  obtain ⟨u, hu, hsame⟩ := hkept e.range r hr
  exact ⟨u, d, info, rule, hu, hsame.parent.trans hp, hsame.typ.trans ht, hinfo, hroot,
    by rw [hsame.separator, hrule], hsame.rule.trans hr', hm⟩

/-- A range is opened for a root as a document configures it. -/
theorem Configured.withRange {s₀ s : Resolution} (h : s₀.Configured s)
    (ho : s.options = s₀.options) {d typ : String} {info : DocumentInfo}
    (hd : s₀.info? d = some info) {location : Location} {separator : String} {rule : LabelRule}
    (hrule : Run.newRule s.options typ (info.document.settings.lookup typ) =
      .ok (separator, rule)) :
    s₀.Configured (s.withRange (info.root.getD d) typ (info.document.settings.lookup typ) location
      separator rule) := by
  intro root entries e hr he
  have hrange := range?_withRange s (info.root.getD d) typ (info.document.settings.lookup typ)
    location separator rule
  have hold : ∀ i r, s.numbering.layout.range? i = some r → ∃ r',
      (s.withRange (info.root.getD d) typ (info.document.settings.lookup typ) location separator
        rule).numbering.layout.range? i = some r' ∧ r.SameSettings r' :=
    fun _ r hr => ⟨r, range?_withRange_of_some hr, .refl r⟩
  rw [lookup_roots_withRange] at hr
  split at hr
  next heq =>
    obtain ⟨old, hlook, rfl⟩ := Option.map_eq_some_iff.1 hr
    rcases List.mem_append.1 he with he | he
    · exact (h root old e hlook he).grow hold
    · cases List.mem_singleton.1 he
      exact ⟨_, d, info, rule, by rw [hrange, if_pos rfl], rfl, rfl, hd, heq.symm, ho ▸ hrule,
        rfl, rfl⟩
  · exact (h root entries e hr he).grow hold

section Visits

variable {W : List (String × List Visit)} {s₀ s s' : Resolution} {unled typ : String} {f : FrameId}
  {range : RangeId}

/-- A range for a slot that is handed over counts as the one that it comes from. -/
theorem Regular.handedOver (h : s₀.Regular unled typ s) (hunset : s₀.Unset W unled typ)
    {link : Link} {document : String} {info : DocumentInfo} {handle : RangeId} {n : Numbering}
    (hh : s.HandedOver s' f link document info range handle n)
    (hunderway : s₀.Underway s') (htyped : s'.Typed) (hconf : s₀.Configured s') : s₀.Regular unled typ s' := by
  refine ⟨hunderway, ?_, ?_, ?_, htyped, hconf⟩
  · rw [hh.numbering_eq]
    exact h.ordered.assign hh.assign
  · rw [hh.numbering_eq]
    refine h.plain.assign h.sound hh.assign fun r hr hrt => ?_
    obtain ⟨r', hr', htyp⟩ := h.typed.of_rangeIn? hh.range_eq
    cases hr.symm.trans hr'
    obtain ⟨info₀, hinfo₀, heq⟩ := h.progress.info_of hh.info_eq
    rw [h.progress.options] at htyp ⊢
    rw [heq]
    exact hunset.level (hrt.symm.trans htyp) document info₀ hinfo₀
  · rw [hh.numbering_eq]
    exact h.led.assign h.sound hh.assign

/-- A range inside of a labeled node counts as the one that the node is counted in, since the nodes
of the type set no rules. -/
theorem Regular.labeled (h : s₀.Regular unled typ s) (hunset : s₀.Unset W unled typ) {d : String}
    {vs : List Visit} {hd : Heading} {entry : EntryId} {inner : FrameId} (hw : (d, vs) ∈ W)
    (hv : .heading f hd entry inner ∈ vs) {slot : SlotId} {below : RangeId} {n₁ n₂ : Numbering}
    (hl : s.Labeled s' f hd entry inner range slot below n₁ n₂)
    (hunderway : s₀.Underway s') (htyped : s'.Typed) (hconf : s₀.Configured s') : s₀.Regular unled typ s' := by
  have ho₁ := h.ordered.next hl.next
  refine ⟨hunderway, ?_, ?_, ?_, htyped, hconf⟩
  · rw [hl.numbering_eq]
    exact Numbering.withNested_induction (P := fun n => n.layout.Ordered) _ _ _
      (ho₁.sub hl.sub) (fun n w hn => hn.setWeight _ w) fun n s r hn => hn.setRule _ s r
  · rw [hl.numbering_eq]
    have hplain := (h.plain.next h.sound hl.next).sub hl.sub
    cases hnested : hd.nested with
    | none => exact hplain
    | some nested =>
      -- The range inside is of another type, since the node sets a rule for it.
      obtain ⟨r, hr, hrt⟩ := h.typed.below_typ h.sound hl
      have hne : r.typ ≠ typ := by
        rintro rfl
        rw [h.progress.options] at hrt
        rw [hunset.nested d vs f hd entry inner hw hv hrt.symm] at hnested
        simp at hnested
      have hother : ∀ u, n₂.layout.range? below = some u → u.typ ≠ typ := fun u hu => by
        cases hr.symm.trans hu
        exact hne
      unfold Numbering.withNested
      dsimp only
      split
      · refine (hplain.setWeight _ _ hother).setRule _ _ _ fun u hu hut => ?_
        rw [Numbering.range?_setWeight, if_pos rfl, hr] at hu
        cases hu
        exact (hne hut).elim
      · exact hplain.setRule _ _ _ fun u hu hut => (hother u hu hut).elim
  · rw [hl.numbering_eq]
    exact Numbering.withNested_induction (P := fun n => n.Led unled) _ _ _
      ((h.led.next h.sound hl.next).sub ho₁ hl.sub) (fun n w hn => hn.setWeight _ w)
      fun n s r hn => hn.setRule _ s r

end Visits

end Resolution

/-- Claiming keeps ranges regular. -/
theorem Prepared.regular {c : Collection} {W : List (String × List Visit)} {s₀ : Resolution}
    {unled typ : String} (h : Prepared c W s₀) (hu : s₀.Unset W unled typ) :
    Claiming.Invariant W s₀ fun _ => s₀.Regular unled typ where
  start d := by
    refine ⟨h.underway.start d, ?_, ?_, ?_, ⟨fun g frame t ids range hg hk => ?_,
      fun root entries e hr he => ?_, fun d info t range hd hm => ?_⟩, fun root entries e hr he => ?_⟩
    · rw [h.numbering]
      exact .empty
    · rw [h.numbering]
      exact .empty
    · rw [h.numbering]
      exact .empty
    · have := h.blank g frame hg
      simp [hk, FrameKind.Blank] at this
    · simp [(h.roots root entries hr).1] at he
    · simp [(h.info d info hd).2.2] at hm
    · simp [(h.roots root entries hr).1] at he
  progress _ t ht := ⟨ht.progress, ht.sound⟩
  range e t d info τ location separator rule ht hd htyp hnone hrule := by
    have hsettings : ∀ lead, (info.document.settings.lookup τ).bind TypeSettings.master = some lead →
        τ ≠ unled := by
      rintro lead hlead rfl
      obtain ⟨settings, hs, hm⟩ := Option.bind_eq_some_iff.1 hlead
      rw [hu.master d info settings hd hs] at hm
      simp at hm
    refine ⟨h.underway.range e t d info τ location separator rule ht.toUnderway hd htyp hnone hrule,
      (ht.ordered.newRange _ _ _).setRule _ _ _, (ht.plain.newRange _ _ _).setRule _ _ _ ?_,
      (ht.led.newRange _ _ _ ?_).setRule _ _ _, ht.typed.withRange ..,
      ht.configured.withRange ht.progress.options hd hrule⟩
    · intro r hr _
      rw [Numbering.newRange_fst, Numbering.layout_newRange, Layout.range?_addRange,
        Layout.addRange_fst, if_pos rfl] at hr
      cases hr
      rfl
    · intro hsome
      cases hm : (info.document.settings.lookup τ).bind TypeSettings.master with
      | none => simp [hm] at hsome
      | some lead => exact hsettings lead hm
  active e t d info ht hd :=
    ⟨h.underway.active e t d info ht.toUnderway hd, ht.ordered.setActive _, ht.plain.setActive _,
      ht.led.setActive _, ⟨ht.typed.inner, ht.typed.entry, ht.typed.handed⟩, ht.configured⟩
  visit t t' d info vs v ht hd hw hv hready hb hvisit := by
    have hkept : ∀ i r, t.numbering.layout.range? i = some r →
        ∃ r', t'.numbering.layout.range? i = some r' ∧ r.SameSettings r' :=
      fun i r hr => hvisit.settings ht.sound hr
    have hu' := h.underway.visit t t' d info vs v ht.toUnderway hd hw hv hready hb hvisit
    have htyped := ht.typed.visit ht.sound hready hvisit
    have hconf : s₀.Configured t' := by
      intro root entries e hr he
      rw [hvisit.roots] at hr
      exact (ht.configured root entries e hr he).grow hkept
    cases hvisit with
    | text _ _ hn | term _ _ _ _ hn =>
      rw [hn.same] at hu' htyped hconf ⊢
      exact ⟨hu', ht.ordered, ht.plain, ht.led, htyped, hconf⟩
    | expansion _ _ _ _ heq => exact heq ▸ ht
    | embedding f key location link document info' range handle n hh =>
      exact ht.handedOver hu hh hu' htyped hconf
    | heading f h' entry inner range slot below n₁ n₂ hl =>
      exact ht.labeled hu hw hv hl hu' htyped hconf

end Folio
