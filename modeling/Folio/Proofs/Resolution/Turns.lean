import Folio.Proofs.Resolution.Embedding
import Folio.Proofs.Resolution.Pace

/-!
# The turns of documents

When it is the turn of a document, its ranges are opened and its walk claims. That leaves the
entries and frames of all other documents alone, and ranges are opened for its root only
(`Resolution.Turn`). So a root is still untouched when its own turn comes, and then it claims from
nothing on, as it was registered (`Run.claimVisits_matched`). Documents below it claim in the same
ranges later on, but what its labeled nodes have claimed stays theirs.
-/

namespace Folio

open Resolution

namespace Resolution

variable {s₀ t t' t'' : Resolution} {d e root : String}

/-- What the turn of the document `e` leaves alone. -/
structure Turn (s₀ : Resolution) (e : String) (t t' : Resolution) : Prop where
  entryAt : ∀ entry d typ id, s₀.Registered entry d typ → d ≠ e → t.EntryAt entry id →
    t'.EntryAt entry id
  frame : ∀ f frame, t.frame? f = some frame → frame.document ≠ e → t'.frame? f = some frame
  info : ∀ d info, s₀.info? d = some info → info.embeddedBy = none → t'.info? d = t.info? d
  roots : ∀ r, ¬Rooted s₀ r e → t'.roots.lookup r = t.roots.lookup r

namespace Turn

theorem refl (s₀ : Resolution) (e : String) (t : Resolution) : s₀.Turn e t t :=
  ⟨fun _ _ _ _ _ _ h => h, fun _ _ h _ => h, fun _ _ _ _ => rfl, fun _ _ => rfl⟩

theorem trans (h : s₀.Turn e t t') (h' : s₀.Turn e t' t'') : s₀.Turn e t t'' where
  entryAt entry d typ id hr hd he :=
    h'.entryAt entry d typ id hr hd (h.entryAt entry d typ id hr hd he)
  frame f frame hf hd := h'.frame f frame (h.frame f frame hf hd) hd
  info d info hd hby := (h'.info d info hd hby).trans (h.info d info hd hby)
  roots r hr := (h'.roots r hr).trans (h.roots r hr)

theorem withRange (t : Resolution) (hr : Rooted s₀ root e) (typ : String)
    (settings : Option TypeSettings) (location : Location) (separator : String)
    (rule : LabelRule) :
    s₀.Turn e t (t.withRange root typ settings location separator rule) where
  entryAt entry d typ' id _ _ := by
    rintro ⟨en, q, hen, hq, hid⟩
    exact ⟨en, q, hen, hq, (beside_withRange t _ _ _ _ _ _).slot q id hid⟩
  frame _ _ hf _ := hf
  info _ _ _ _ := rfl
  roots r hu := by
    rw [lookup_roots_withRange, if_neg]
    rintro rfl
    exact hu hr

theorem setActive (t : Resolution) (active : List (String × RangeId)) :
    s₀.Turn e t { t with numbering := t.numbering.setActive active } :=
  ⟨fun _ _ _ _ _ _ h => h, fun _ _ h _ => h, fun _ _ _ _ => rfl, fun _ _ => rfl⟩

end Turn

theorem Registered.document_eq {s : Resolution} {entry : EntryId} {typ typ' : String}
    (h : s.Registered entry d typ) (h' : s.Registered entry e typ') : d = e := by
  obtain ⟨en, hen, rfl, -⟩ := h
  obtain ⟨en', hen', rfl, -⟩ := h'
  cases hen.symm.trans hen'
  rfl

/-- The visits on the walk of a document are part of its turn. -/
theorem Visited.turn {c : Collection} {W : List (String × List Visit)} {vs : List Visit}
    {v : Visit} (hp : Prepared c W s₀) (ht : s₀.Progress t) (hs : t.numbering.layout.Sound)
    (hw : (e, vs) ∈ W) (hmem : v ∈ vs) (hready : t.Ready v) (hb : t.Belongs e v.frame)
    (hv : t.Visited t' v) : s₀.Turn e t t' where
  entryAt entry d typ id hr hd := by
    refine hv.entryAt hs fun hve => hd ?_
    obtain ⟨typ', hr'⟩ := hp.registered hw (List.mem_filterMap.2 ⟨v, hmem, hve⟩)
    exact hr.document_eq hr'
  frame f frame hf hd := by
    cases hv with
    | text _ _ hn | term _ _ _ _ hn =>
      rw [hn.same]
      exact hf
    | expansion _ _ _ _ heq => exact heq ▸ hf
    | embedding _ _ _ _ _ _ _ _ _ hh =>
      rw [hh.same]
      exact hf
    | heading _ h _ inner _ _ _ _ _ hl =>
      rw [hl.frame?_eq, hf]
      rintro rfl
      obtain ⟨frame', hf', hd'⟩ := (hb.enter hready.2.1).frame
      cases hf.symm.trans hf'
      exact hd hd'
  info d info hd hby := by
    cases hv with
    | text _ _ hn | term _ _ _ _ hn => rw [hn.same]; rfl
    | expansion _ _ _ _ heq => rw [heq]
    | heading _ _ _ _ _ _ _ _ _ hl => rw [hl.same]; rfl
    | embedding f key location link document _ _ _ _ hh =>
      rw [hh.info?, if_neg]
      rintro rfl
      obtain ⟨target, htarget, hby', -⟩ := hp.embeddedBy_of_handedOver ht hw hmem hh
      cases hd.symm.trans htarget
      cases hby.symm.trans hby'
  roots r _ := by rw [hv.roots]

/-- Nothing was claimed for a root, and no range was opened. -/
structure Untouched (s₀ t : Resolution) (d : String) : Prop where
  roots : t.roots.lookup d = some []
  info : t.info? d = s₀.info? d
  frame : ∀ f frame, s₀.frame? f = some frame → frame.document = d → t.frame? f = some frame

/-- A root is untouched while documents have their turn that are not below it. -/
theorem Untouched.turn {info : DocumentInfo} (h : s₀.Untouched t d) (ht : s₀.Turn e t t')
    (hd : s₀.info? d = some info) (hby : info.embeddedBy = none) (hr : ¬Rooted s₀ d e) :
    s₀.Untouched t' d where
  roots := (ht.roots d hr).trans h.roots
  info := (ht.info d info hd hby).trans h.info
  frame f frame hf hdoc := by
    refine ht.frame f frame (h.frame f frame hf hdoc) ?_
    rintro rfl
    exact hr (hdoc ▸ .top (hdoc ▸ hd) hby)

/-- The ranges in use in a root that is untouched are its own, and they are in use at the top. -/
theorem Untouched.exists_entry {c : Collection} {W : List (String × List Visit)}
    {info : DocumentInfo} {f : FrameId} {typ : String} {i : RangeId} (hp : Prepared c W s₀)
    (hu : s₀.Untouched t d) (hframes : t'.frames = t.frames)
    (hdocuments : t'.documents = t.documents) (hd : s₀.info? d = some info)
    (hroot : info.root = some d) (hn : s₀.Nested info.frame f) (hi : t'.rangeOf? f typ = some i) :
    f = info.frame ∧ ∃ e, t'.rangeFor? d typ = some e ∧ e.range = i := by
  obtain ⟨top, htop, -, hdoc, -⟩ := (hp.info d info hd).2.1.frame
  obtain ⟨frame, hf⟩ := hn.exists_frame ⟨top, htop⟩
  have hown := hn.documentOf
  rw [documentOf_eq hf, documentOf_eq htop, hdoc] at hown
  have hf' : t'.frame? f = some frame := by
    rw [frame?, hframes]
    exact hu.frame f frame hf hown
  have hd' : t'.info? d = some info := by
    rw [info?, hdocuments]
    exact hu.info.trans hd
  have hblank := hp.blank f frame hf
  unfold rangeOf? at hi
  rw [hf', Option.bind_some] at hi
  cases hk : frame.kind with
  | document ids =>
    rw [hk, hown] at hi
    refine ⟨hn.eq_top hf (by rw [hk]; trivial), ?_⟩
    obtain ⟨info', hinfo', hl | ⟨-, root, e, hroot', he, hrange⟩⟩ := documentRange?_eq_some hi <;>
      cases hd'.symm.trans hinfo'
    · rw [(hp.info d info hd).2.2] at hl
      cases hl
    · cases hroot.symm.trans hroot'
      exact ⟨e, he, hrange⟩
  | subRange t ids range =>
    rw [hk] at hi hblank
    obtain rfl : range = none := hblank
    simp at hi
  | block | static =>
    rw [hk] at hi
    cases hi

/-- The entries on the walk of a document stand at slots that have their ids. -/
def Matched (W : List (String × List Visit)) (s₀ t : Resolution) (d : String) : Prop :=
  ∀ vs, (d, vs) ∈ W → ∀ e ∈ vs.filterMap Visit.entry?, ∃ id, s₀.HasEntry e id ∧ t.EntryAt e id

/-- What was claimed for a document stays while others have their turn. -/
theorem Matched.turn {c : Collection} {W : List (String × List Visit)} (hp : Prepared c W s₀)
    (h : Matched W s₀ t d) (ht : s₀.Turn e t t') (hne : d ≠ e) : Matched W s₀ t' d := by
  intro vs hw entry he
  obtain ⟨id, hid, hat⟩ := h vs hw entry he
  obtain ⟨typ, hr⟩ := hp.registered hw he
  exact ⟨id, hid, ht.entryAt entry d typ id hr hne hat⟩

end Resolution

namespace Run

variable {s₀ t : Resolution} {c : Collection} {W : List (String × List Visit)} {d : String}
  {vs : List Visit} {info : DocumentInfo}

/-- The turn of a document: its ranges are opened, and then its walk is made. -/
theorem claimVisits_of_walk (hp : Prepared c W s₀) (ht : s₀.Progress t) (hw : (d, vs) ∈ W)
    {Q : Unit → Resolution → Prop}
    (h : ∀ info, t.info? d = some info → After True (openRanges d info) t fun _ t₁ =>
      After True (vs.forM labelVisit) t₁ Q) : After True (claimVisits W d) t Q := by
  obtain ⟨info₀, hinfo₀, -⟩ := hp.walk d vs hw
  obtain ⟨handed, hinfo⟩ := ht.info d info₀ hinfo₀
  unfold claimVisits
  rw [After.bind_iff, After.get_iff, hinfo]
  dsimp only
  rw [After.bind_iff, hp.lookup_walk hw, Option.getD_some]
  exact h _ hinfo

theorem claimVisits_turn (hp : Prepared c W s₀) (ht : s₀.Progress t)
    (hs : t.numbering.layout.Sound) (hw : (d, vs) ∈ W) :
    After True (claimVisits W d) t fun _ t' => s₀.Turn d t t' := by
  obtain ⟨info₀, hinfo₀, hwalk, -⟩ := hp.walk d vs hw
  obtain ⟨root, hroot, hrooted⟩ := hp.rooted hinfo₀
  refine claimVisits_of_walk hp ht hw fun info hinfo => ?_
  have hgetD : info.root.getD d = root := by
    obtain ⟨info₀', hinfo₀', heq⟩ := ht.info_of hinfo
    cases hinfo₀.symm.trans hinfo₀'
    rw [heq, hroot, Option.getD_some]
  refine (openRanges_spec
    (J := fun u => s₀.Progress u ∧ u.numbering.layout.Sound ∧ s₀.Turn d t u)
    (K := fun u => s₀.Progress u ∧ u.numbering.layout.Sound ∧ s₀.Turn d t u)
    (fun u typ location separator rule ⟨hu, hsound, hturn⟩ _ _ _ => ?_)
    (fun u ⟨hu, hsound, hturn⟩ => ?_) ⟨ht, hs, .refl ..⟩).mono fun _ t₁ h₁ => ?_
  · rw [hgetD]
    exact ⟨hu.trans (withRange_progress ..), withRange_sound hsound ..,
      hturn.trans (.withRange u hrooted ..)⟩
  · exact ⟨hu.trans (.of_numbering rfl (Nat.le_refl _)), hsound.setActive _,
      hturn.trans (.setActive u _)⟩
  · refine (After.forM (I := fun u => s₀.Progress u ∧ u.numbering.layout.Sound ∧ s₀.Turn d t u)
      (fun v hv u ⟨hu, hsound, hturn⟩ => ?_) h₁).mono fun _ _ h => h.2.2
    have hready := (hwalk.ready v hv).keeps hu.toKeeps
    have hbelongs := (hwalk.belongs (hp.info d info₀ hinfo₀).2.1.belongs v hv).keeps hu.toKeeps
    refine (labelVisit_spec hready).mono fun _ u' hvisit => ?_
    obtain ⟨hprogress, hsound'⟩ := hvisit.progress hsound
    exact ⟨hu.trans hprogress, hsound',
      hturn.trans (hvisit.turn hp hu hsound hw hv hready hbelongs)⟩

/-- The ranges of a root that is untouched are opened: they are in use at its top, and have no slots
yet. -/
theorem openRanges_untouched (hp : Prepared c W s₀) (ht : s₀.Progress t)
    (hs : t.numbering.layout.Sound) (hd : s₀.info? d = some info) (hby : info.embeddedBy = none)
    (hu : s₀.Untouched t d) :
    After True (openRanges d info) t fun _ t' => s₀.Progress t' ∧ t'.numbering.layout.Sound ∧
      ∀ T : Tally, (∀ typ, T info.frame typ = {}) →
        t'.numbering.layout.Paced (s₀.Nested info.frame) t'.rangeOf? T := by
  obtain ⟨root, hroot, hrooted⟩ := hp.rooted hd
  obtain rfl : root = d := hrooted.unique (.top hd hby)
  obtain ⟨hdocument, htop, hhanded⟩ := hp.info root info hd
  refine openRanges_spec (J := fun u => s₀.Progress u ∧ u.numbering.layout.Sound ∧
    u.frames = t.frames ∧ u.documents = t.documents ∧ ∀ typ, u.Begun root typ)
    (fun u typ location separator rule hJ _ _ _ => ?_) (fun u hJ => ?_)
    ⟨ht, hs, rfl, rfl, fun typ e he => ?_⟩
  · obtain ⟨hprogress, hsound, hframes, hdocuments, hbegun⟩ := hJ
    exact ⟨hprogress.trans (withRange_progress ..), withRange_sound hsound .., hframes, hdocuments,
      fun typ => (hbegun typ).withRange _ _ _ _ _ _⟩
  · obtain ⟨hprogress, hsound, hframes, hdocuments, hbegun⟩ := hJ
    refine ⟨hprogress.trans (.of_numbering rfl (Nat.le_refl _)), hsound.setActive _, fun T hT => ?_⟩
    have hown : ∀ f typ i, s₀.Nested info.frame f → u.rangeOf? f typ = some i →
        f = info.frame ∧ u.numbering.layout.Growing i typ [] 0 := by
      intro f typ i hn hi
      obtain ⟨htop, e, he, rfl⟩ := hu.exists_entry hp hframes hdocuments hd hroot hn hi
      exact ⟨htop, hbegun typ e he⟩
    refine ⟨fun f typ i hn hi => ?_, fun f g typ i hn hn' hi hi' => ?_⟩
    · obtain ⟨rfl, hgrow⟩ := hown f typ i hn hi
      rw [hT]
      exact hgrow
    · exact (hown f typ i hn hi).1.trans (hown g typ i hn' hi').1.symm
  · simp [rangeFor?, hu.roots] at he

/-- In its turn, a root that is untouched claims the slots with the ids that were given to its
labeled nodes. -/
theorem claimVisits_matched (hp : Prepared c W s₀) (ho : s₀.Ordered) (ht : s₀.Progress t)
    (hs : t.numbering.layout.Sound) (hd : s₀.info? d = some info) (hby : info.embeddedBy = none)
    (hn : s₀.Numbered s₀ d info) (hu : s₀.Untouched t d) :
    After True (claimVisits W d) t fun _ t' => Matched W s₀ t' d := by
  obtain ⟨vs, hw⟩ := hp.exists_walk hd
  obtain ⟨info', hd', hwalk, -⟩ := hp.walk d vs hw
  cases hd.symm.trans hd'
  obtain ⟨vs', T, hwalk', hcounted, hzero⟩ := hn
  obtain rfl := hwalk.unique hwalk'
  obtain ⟨frame, hf, -, hdoc, -, hk⟩ := (hp.info d info hd).2.1.frame
  refine claimVisits_of_walk hp ht hw fun info' hinfo' => ?_
  cases (hu.info.trans hd).symm.trans hinfo'
  refine (openRanges_untouched hp ht hs hd hby hu).mono fun _ t₁ ⟨ht₁, hs₁, hpaced⟩ => ?_
  refine (hwalk.claims_counted ho hf hk (hp.untangled hw hd) ht₁ hs₁
    (hpaced T (hzero info.frame frame hf hdoc))).mono fun _ t₂ hat vs' hw' e he => ?_
  cases (hp.lookup_walk hw).symm.trans (hp.lookup_walk hw')
  obtain ⟨v, hv, hve⟩ := List.mem_filterMap.1 he
  exact hcounted.exists_id hat hv hve

end Run

end Folio
