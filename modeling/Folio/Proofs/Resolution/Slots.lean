import Folio.Proofs.Resolution.Binding
import Folio.Proofs.Resolution.Chain
import Folio.Proofs.Resolution.Finding

/-!
# Slots of all entries

`Claiming.Invariant` says what it takes for a property to hold throughout claiming: it is kept when
a range is opened for a root, when the ranges in use are noted, and by each visit. `resolve_spec`
puts all phases together. Whatever the invariant, a resolution that succeeds has claimed a slot for
every entry, has bound labels to the slots that are covered, and has not changed either since.
-/

namespace Folio

open Resolution

namespace Resolution

/-- An entry has a slot that is there. -/
def Slotted (s : Resolution) (e : EntryId) : Prop :=
  ∃ entry q, s.registry.entryAt? e = some entry ∧ entry.slot = some q ∧
    q.index < s.numbering.layout.slots.size

theorem Slotted.progress {s s' : Resolution} {e : EntryId} (h : s.Slotted e)
    (hs : s.Progress s') : s'.Slotted e := by
  obtain ⟨entry, q, he, hq, hlt⟩ := h
  obtain ⟨slot, abbreviation, he', hslot | ⟨q', hq', hlt'⟩⟩ := hs.slots e entry he
  · exact ⟨_, q, he', hslot.trans hq, Nat.lt_of_lt_of_le hlt hs.size⟩
  · exact ⟨_, q', he', hq', hlt'⟩

theorem Visited.slotted {s s' : Resolution} {v : Visit} (h : s.Visited s' v) (hr : s.Ready v)
    (hs : s.numbering.layout.Sound) {e : EntryId} (he : v.entry? = some e) : s'.Slotted e := by
  cases h with
  | heading f h' entry inner range slot below n₁ n₂ hl =>
    cases he
    obtain ⟨-, -, en, hen, -⟩ := hr
    have hentry := hl.entryAt? e
    rw [if_pos rfl, hen] at hentry
    exact ⟨_, slot, hentry, rfl, hl.size_eq ▸ (hs.lt_of_next hl.next).1⟩
  | _ => simp [Visit.entry?] at he

end Resolution

namespace Claiming

/-- `J d` holds throughout claiming, as long as the ranges of the document `d` are in use. -/
structure Invariant (W : List (String × List Visit)) (s₀ : Resolution)
    (J : String → Resolution → Prop) : Prop where
  start : ∀ d, J d s₀
  progress : ∀ d t, J d t → s₀.Progress t ∧ t.numbering.layout.Sound
  range : ∀ e t d info typ location separator rule, J e t → s₀.info? d = some info →
    typ ∈ info.ranges → t.rangeFor? (info.root.getD d) typ = none →
    Run.newRule t.options typ (info.document.settings.lookup typ) = .ok (separator, rule) →
    J e (t.withRange (info.root.getD d) typ (info.document.settings.lookup typ) location separator
      rule)
  active : ∀ e t d info, J e t → s₀.info? d = some info → J d { t with
    numbering := t.numbering.setActive (t.inUse (info.root.getD d) d) }
  visit : ∀ t t' d info vs v, J d t → s₀.info? d = some info → (d, vs) ∈ W → v ∈ vs →
    t.Ready v → t.Belongs d v.frame → t.Visited t' v → J d t'

/-- Under an assumption, more may hold. -/
theorem Invariant.and_imp {W : List (String × List Visit)} {s₀ : Resolution}
    {J J' : String → Resolution → Prop} {P : Prop} (h : Invariant W s₀ J)
    (h' : P → Invariant W s₀ J') : Invariant W s₀ fun d t => J d t ∧ (P → J' d t) where
  start d := ⟨h.start d, fun hP => (h' hP).start d⟩
  progress d t ht := h.progress d t ht.1
  range e t d info typ location separator rule ht hd htyp hnone hrule :=
    ⟨h.range e t d info typ location separator rule ht.1 hd htyp hnone hrule,
      fun hP => (h' hP).range e t d info typ location separator rule (ht.2 hP) hd htyp hnone hrule⟩
  active e t d info ht hd := ⟨h.active e t d info ht.1 hd,
    fun hP => (h' hP).active e t d info (ht.2 hP) hd⟩
  visit t t' d info vs v ht hd hw hv hready hb hvisit :=
    ⟨h.visit t t' d info vs v ht.1 hd hw hv hready hb hvisit,
      fun hP => (h' hP).visit t t' d info vs v (ht.2 hP) hd hw hv hready hb hvisit⟩

end Claiming

namespace Run

variable {c : Collection} {W : List (String × List Visit)} {s₀ s : Resolution}
  {J : String → Resolution → Prop}

theorem claimVisits_spec (hp : Prepared c W s₀) (hJ : Claiming.Invariant W s₀ J) (d : String)
    {e : String} (h : J e s) : After True (claimVisits W d) s fun _ s' => (∃ e, J e s') ∧
      ∀ vs, (d, vs) ∈ W → ∀ v ∈ vs, ∀ e, v.entry? = some e → s'.Slotted e := by
  unfold claimVisits
  rw [After.bind_iff, After.get_iff]
  cases hinfo : s.info? d with
  | none =>
    refine ⟨⟨e, h⟩, fun vs hmem => ?_⟩
    obtain ⟨info₀, hinfo₀, -⟩ := hp.walk d vs hmem
    obtain ⟨handedRanges, hinfo'⟩ := (hJ.progress e s h).1.info d info₀ hinfo₀
    cases hinfo.symm.trans hinfo'
  | some info =>
    obtain ⟨info₀, hinfo₀, heq⟩ := (hJ.progress e s h).1.info_of hinfo
    dsimp only
    rw [After.bind_iff]
    refine (openRanges_spec (J := J e) (K := J d)
      (fun t typ location separator rule ht htyp hnone hrule => ?_) (fun t ht => ?_) h).mono
      fun _ s₁ h₁ => ?_
    · rw [heq] at htyp hnone hrule ⊢
      exact hJ.range e t d info₀ typ location separator rule ht hinfo₀ htyp hnone hrule
    · rw [heq]
      exact hJ.active e t d info₀ ht hinfo₀
    obtain ⟨vs, hw⟩ := hp.exists_walk hinfo₀
    have hlookup : W.lookup d = some vs := hp.lookup_walk hw
    obtain ⟨info₀', hinfo₀', hwalk, -⟩ := hp.walk d vs hw
    cases hinfo₀.symm.trans hinfo₀'
    have hbelongs := hwalk.belongs (hp.info d info₀ hinfo₀).2.1.belongs
    rw [hlookup, Option.getD_some]
    refine (After.forM_split (J := fun pre _ t => J d t ∧
      ∀ v ∈ pre, ∀ e, v.entry? = some e → t.Slotted e) ?_ ⟨h₁, by simp⟩).mono ?_
    · rintro pre v post t hsplit ⟨ht, hpre⟩
      have hv : v ∈ vs := by simp [← hsplit]
      obtain ⟨hprogress, hsound⟩ := hJ.progress d t ht
      have hready := (hwalk.ready v hv).keeps hprogress.toKeeps
      refine (labelVisit_spec hready).mono fun _ t' hvisit => ?_
      refine ⟨hJ.visit t t' d info₀ vs v ht hinfo₀ hw hv hready
        ((hbelongs v hv).keeps hprogress.toKeeps) hvisit, fun u hu e he => ?_⟩
      rcases List.mem_append.1 hu with hu | hu
      · exact (hpre u hu e he).progress (hvisit.progress hsound).1
      · cases List.mem_singleton.1 hu
        exact hvisit.slotted hready hsound he
    · rintro _ t ⟨ht, hall⟩
      refine ⟨⟨d, ht⟩, fun vs' hvs' => ?_⟩
      cases hlookup.symm.trans (hp.lookup_walk hvs')
      exact hall

/-- An invariant holds when all documents are claimed, and the entries on their walks have
slots. -/
theorem claimAll_spec (hp : Prepared c W s₀) (hJ : Claiming.Invariant W s₀ J) :
    After True (s₀.order.forM (claimVisits W)) s₀ fun _ s => (∃ e, J e s) ∧
      ∀ d ∈ s₀.order, ∀ vs, (d, vs) ∈ W → ∀ v ∈ vs, ∀ e, v.entry? = some e → s.Slotted e := by
  refine After.forM_split (J := fun pre _ t => (∃ e, J e t) ∧
    ∀ d ∈ pre, ∀ vs, (d, vs) ∈ W → ∀ v ∈ vs, ∀ e, v.entry? = some e → t.Slotted e) ?_
    ⟨⟨"", hJ.start ""⟩, by simp⟩
  rintro pre d post t - ⟨⟨e, ht⟩, hpre⟩
  obtain ⟨hprogress, hsound⟩ := hJ.progress e t ht
  refine ((claimVisits_spec hp hJ d ht).and (claimVisits_progress hp hprogress hsound d)).mono ?_
  rintro _ t' ⟨⟨ht', hd⟩, hprogress', -⟩
  refine ⟨ht', fun d' hd' vs hvs v hv e he => ?_⟩
  rcases List.mem_append.1 hd' with hd' | hd'
  · exact (hpre d' hd' vs hvs v hv e he).progress hprogress'
  · cases List.mem_singleton.1 hd'
    exact hd vs hvs v hv e he

end Run

/-! ## What always holds -/

namespace Resolution

theorem rangeFor?_eq_none {s : Resolution} {root typ : String} {entries : List RangeEntry}
    (h : s.rangeFor? root typ = none) (hr : s.roots.lookup root = some entries) :
    typ ∉ entries.map RangeEntry.typ := by
  rw [rangeFor?, hr, Option.bind_some, List.find?_eq_none] at h
  intro hmem
  obtain ⟨e, he, rfl⟩ := List.mem_map.1 hmem
  simpa using h e he

theorem lookup_roots_withRange (s : Resolution) (root typ : String)
    (settings : Option TypeSettings) (location : Location) (separator : String)
    (rule : LabelRule) (r : String) :
    (s.withRange root typ settings location separator rule).roots.lookup r =
      if r = root then (s.roots.lookup r).map (· ++ [{
        typ, range := s.numbering.layout.freshRange, master := settings.bind TypeSettings.master
        location }])
      else s.roots.lookup r := by
  unfold withRange
  dsimp only
  rw [Table.lookup_change, Numbering.newRange_fst]

theorem range?_withRange (s : Resolution) (root typ : String) (settings : Option TypeSettings)
    (location : Location) (separator : String) (rule : LabelRule) (i : RangeId) :
    (s.withRange root typ settings location separator rule).numbering.layout.range? i =
      if i = s.numbering.layout.freshRange then some {
        typ, abbreviation := (settings.map TypeSettings.abbreviation).getD "", separator
        rule := some rule }
      else s.numbering.layout.range? i := by
  unfold withRange
  dsimp only
  rw [Numbering.range?_setRule, Numbering.layout_newRange, Numbering.newRange_fst,
    Layout.range?_addRange, Layout.addRange_fst]
  split <;> rfl

theorem range?_withRange_of_some {s : Resolution} {i : RangeId} {r : Range}
    (hr : s.numbering.layout.range? i = some r) {root typ : String}
    {settings : Option TypeSettings} {location : Location} {separator : String}
    {rule : LabelRule} :
    (s.withRange root typ settings location separator rule).numbering.layout.range? i =
      some r := by
  rw [range?_withRange, if_neg (Layout.ne_freshRange hr), hr]

theorem Distinct.withRange {s : Resolution} (h : s.Distinct) {root typ : String}
    (hnone : s.rangeFor? root typ = none) (settings : Option TypeSettings) (location : Location)
    (separator : String) (rule : LabelRule) :
    (s.withRange root typ settings location separator rule).Distinct := by
  intro r entries hr
  rw [lookup_roots_withRange] at hr
  split at hr
  next heq =>
    obtain ⟨old, hold, rfl⟩ := Option.map_eq_some_iff.1 hr
    rw [List.map_append]
    refine List.nodup_append.2 ⟨h r old hold, by simp, ?_⟩
    rintro a ha b hb rfl
    simp only [List.map_cons, List.map_nil, List.mem_singleton] at hb
    exact rangeFor?_eq_none hnone (heq ▸ hold) (hb ▸ ha)
  · exact h r entries hr

theorem Visited.roots {s s' : Resolution} {v : Visit} (h : s.Visited s' v) :
    s'.roots = s.roots := by
  cases h with
  | text _ _ h | term _ _ _ _ h => rw [h.same]
  | expansion _ _ _ _ h => rw [h]
  | embedding _ _ _ _ _ _ _ _ _ hh =>
    rw [hh.same]
    rfl
  | heading _ _ _ _ _ _ _ _ _ hl => rw [hl.same]

theorem Visited.growth {s s' : Resolution} {v : Visit} (h : s.Visited s' v)
    (hs : s.numbering.layout.Sound) : s.numbering.layout.Growth s'.numbering.layout := by
  cases h with
  | text _ _ h | term _ _ _ _ h =>
    rw [h.same]
    exact .refl _
  | expansion _ _ _ _ h =>
    rw [h]
    exact .refl _
  | embedding _ _ _ _ _ _ _ _ _ hh =>
    rw [hh.numbering_eq]
    exact .assign hs hh.assign
  | heading _ _ _ _ _ _ _ _ _ hl =>
    rw [hl.numbering_eq]
    exact ((Layout.Growth.next hs hl.next).trans (.sub hl.sub)).trans (.withNested ..)

theorem unlabeled_withRange {s : Resolution} (h : s.numbering.layout.Unlabeled)
    (root typ : String) (settings : Option TypeSettings) (location : Location)
    (separator : String) (rule : LabelRule) :
    (s.withRange root typ settings location separator rule).numbering.layout.Unlabeled := by
  change (Numbering.newRange _ _ _ _).2.layout.Unlabeled
  rw [Numbering.layout_newRange]
  exact h

/-- Slots are claimed, and no label is bound yet. -/
structure Underway (s₀ s : Resolution) : Prop where
  progress : s₀.Progress s
  sound : s.numbering.layout.Sound
  unlabeled : s.numbering.layout.Unlabeled
  distinct : s.Distinct

end Resolution

theorem Prepared.underway {c : Collection} {W : List (String × List Visit)} {s₀ : Resolution}
    (h : Prepared c W s₀) : Claiming.Invariant W s₀ fun _ => s₀.Underway where
  start _ := by
    refine ⟨.refl s₀, ?_, ?_, fun root entries hr => ?_⟩
    · rw [h.numbering]
      exact .empty
    · rw [h.numbering]
      intro q s hs
      simp [Layout.slot?] at hs
    · rw [(h.roots root entries hr).1]
      exact .nil
  progress _ t ht := ⟨ht.progress, ht.sound⟩
  range _ t d info typ location separator rule ht _ _ hnone _ :=
    ⟨ht.progress.trans (withRange_progress ..), withRange_sound ht.sound ..,
      unlabeled_withRange ht.unlabeled _ _ _ _ _ _, ht.distinct.withRange hnone _ _ _ _⟩
  active _ t d info ht _ :=
    ⟨ht.progress.trans (.of_numbering rfl (Nat.le_refl _)), ht.sound.setActive _,
      ht.unlabeled, ht.distinct⟩
  visit t t' d info vs v ht _ _ _ _ _ hv := by
    obtain ⟨hp, hs⟩ := hv.progress ht.sound
    refine ⟨ht.progress.trans hp, hs, (hv.growth ht.sound).unlabeled ht.unlabeled, ?_⟩
    rw [Distinct, hv.roots]
    exact ht.distinct

/-! ## All phases -/

/-- How a resolution came about: `s₀` was prepared, `s₁` has all slots claimed, labels are bound
in `s₂`, and `s` has the texts as well. -/
structure Resolved (c : Collection) (W : List (String × List Visit)) (s₀ s₁ s₂ s : Resolution) :
    Prop where
  prepared : Prepared c W s₀
  underway : s₀.Underway s₁
  order : ∀ d info, s₀.info? d = some info → d ∈ s₀.order
  slotted : ∀ e entry, s₁.registry.entryAt? e = some entry → s₁.Slotted e
  bound : s₁.Bound s₂ fun q => ∃ root entries, s₁.roots.lookup root = some entries ∧
    CoversAny s₁.numbering.layout entries q
  borne : Run.Borne s₁ s₂
  settled : s₂.Settled s

theorem Resolved.keeps {c : Collection} {W : List (String × List Visit)}
    {s₀ s₁ s₂ s : Resolution} (h : Resolved c W s₀ s₁ s₂ s) : s₀.Keeps s :=
  (h.underway.progress.toKeeps.trans h.bound.keeps).trans h.settled.keeps

/-- What is known about a document in the end was known when slots were claimed, but for the ranges
that are handed over. -/
theorem Resolved.exists_info {c : Collection} {W : List (String × List Visit)}
    {s₀ s₁ s₂ s : Resolution} (h : Resolved c W s₀ s₁ s₂ s) {d : String} {info : DocumentInfo}
    (hd : s.info? d = some info) :
    ∃ info₀, s₀.info? d = some info₀ ∧ info = { info₀ with handedRanges := info.handedRanges } := by
  have hdocuments : s.documents = s₁.documents := by rw [h.settled.same, h.bound.same]
  rw [info?, hdocuments] at hd
  exact h.underway.progress.info_of hd

theorem Prepared.exists_visit {c : Collection} {W : List (String × List Visit)}
    {s₀ : Resolution} (h : Prepared c W s₀) {e : EntryId}
    (he : e.index < s₀.registry.entries.size) :
    ∃ d vs, (d, vs) ∈ W ∧ ∃ v ∈ vs, v.entry? = some e := by
  have hmem : e.index ∈ ((W.flatMap Prod.snd).filterMap Visit.entry?).map EntryId.index := by
    rw [h.entries]
    simpa using he
  obtain ⟨⟨i⟩, hi, rfl⟩ := List.mem_map.1 hmem
  obtain ⟨v, hv, hve⟩ := List.mem_filterMap.1 hi
  obtain ⟨⟨d, vs⟩, hw, hv⟩ := List.mem_flatMap.1 hv
  exact ⟨d, vs, hw, v, hv, hve⟩

/-- Claiming, binding and finding texts, and what claiming comes to when labels are bound. -/
theorem Prepared.resolved_after {c : Collection} {W : List (String × List Visit)} {s₀ : Resolution}
    (hp : Prepared c W s₀) {J : Resolution → Prop}
    (hJ : After True (s₀.order.forM (Run.claimVisits W)) s₀ fun _ s => J s) :
    After True (do Run.resolveRanges; Run.resolveValues) s₀ fun _ s =>
      ∃ s₁ s₂, Resolved c W s₀ s₁ s₂ s ∧ J s₁ := by
  rw [After.bind_iff]
  refine Run.resolveRanges_of_order (R := fun _ => True) hp (.inl fun _ => trivial)
    (((Run.claimAll_spec hp hp.underway).and hJ).mono ?_)
  rintro _ s₁ ⟨⟨⟨-, hu⟩, hslotted⟩, hJ⟩ - - horder
  refine ((Run.bindRoots_spec hu.distinct hu.sound s₀.roots.keys).and
    (Run.bindRoots_borne hu.sound hu.unlabeled _)).mono fun _ s₂ ⟨hb, hborne⟩ => ?_
  have hdocuments : s₂.documents = s₁.documents := by rw [hb.same]
  refine (Run.resolveValues_spec fun p hp' => ?_).mono fun _ s hsettled =>
    ⟨s₁, s₂, ⟨hp, hu, horder, fun e entry he => ?_, hb.mono fun q => ?_, hborne, hsettled⟩, hJ⟩
  · obtain ⟨d, info⟩ := p
    rw [hdocuments] at hp'
    have hascending : s₁.documents.keys.Pairwise (· < ·) := by
      rw [hu.progress.keys, hp.keys]
      exact hp.ascending
    obtain ⟨info₀, hinfo₀, heq⟩ := hu.progress.info_of (Table.lookup_of_mem hascending hp')
    obtain ⟨vs, hw⟩ := hp.exists_walk hinfo₀
    obtain ⟨info₀', hinfo₀', hwalk, -⟩ := hp.walk d vs hw
    cases hinfo₀.symm.trans hinfo₀'
    refine ⟨vs, ?_⟩
    rw [heq]
    exact hwalk.keeps (hu.progress.toKeeps.trans hb.keeps)
  · have hlt : e.index < s₀.registry.entries.size := by
      rw [← hu.progress.entries_size]
      exact (Array.getElem?_eq_some_iff.1 he).1
    obtain ⟨d, vs, hw, v, hv, hve⟩ := hp.exists_visit hlt
    obtain ⟨info, hd, -⟩ := hp.walk d vs hw
    exact hslotted d (horder d info hd) vs hw v hv e hve
  · refine ⟨fun ⟨root, _, h⟩ => ⟨root, h⟩, fun ⟨root, entries, hr, hc⟩ => ⟨root, ?_, entries, hr, hc⟩⟩
    rw [← hu.progress.root_keys]
    exact Table.mem_keys_iff.2 ⟨entries, hr⟩

/-- A resolution that succeeds went through all phases. -/
theorem Collection.Described.underlies_spec {c : Collection} (h : c.Described)
    {J : List (String × List Visit) → Resolution → Resolution → Resolution → Prop}
    (hJ : ∀ W s₁ s₀, Underlies c W s₁ s₀ →
      After True (s₀.order.forM (Run.claimVisits W)) s₀ fun _ s => J W s₁ s₀ s) {s : Resolution}
    (hs : c.resolve = .ok () s) : ∃ W sᵣ s₀ s₁ s₂, Underlies c W sᵣ s₀ ∧
      Resolved c W s₀ s₁ s₂ s ∧ J W sᵣ s₀ s₁ :=
  After.of_ok (Q := fun _ s => ∃ W sᵣ s₀ s₁ s₂, Underlies c W sᵣ s₀ ∧
      Resolved c W s₀ s₁ s₂ s ∧ J W sᵣ s₀ s₁)
    (h.phases_spec fun W sᵣ s₀ hu => (hu.prepared.resolved_after (hJ W sᵣ s₀ hu)).mono
      fun _ _ ⟨s₁, s₂, hr, hJ⟩ => ⟨W, sᵣ, s₀, s₁, s₂, hu, hr, hJ⟩) hs

/-- What claiming comes to held when labels were bound. -/
theorem Collection.Described.resolve_spec {c : Collection} (h : c.Described)
    {J : List (String × List Visit) → Resolution → Resolution → Prop}
    (hJ : ∀ W s₀, Prepared c W s₀ →
      After True (s₀.order.forM (Run.claimVisits W)) s₀ fun _ s => J W s₀ s) {s : Resolution}
    (hs : c.resolve = .ok () s) :
    ∃ W s₀ s₁ s₂, Resolved c W s₀ s₁ s₂ s ∧ J W s₀ s₁ := by
  obtain ⟨W, -, s₀, s₁, s₂, -, hr, hJ⟩ :=
    h.underlies_spec (J := fun W _ => J W) (fun W _ s₀ hu => hJ W s₀ hu.prepared) hs
  exact ⟨W, s₀, s₁, s₂, hr, hJ⟩

end Folio
