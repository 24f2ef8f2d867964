import Folio.Proofs.LabeledNodes
import Folio.Proofs.Resolution.Naming
import Folio.Proofs.Resolution.Substitution
import Mathlib.Logic.Relation

/-!
# Embedding is transparent

Documents that consist of sections and references to other documents are numbered through: the
labels of all sections below a root are those that they have in the one document which arises when
every reference is replaced by the top level section of the document that it leads to
(`Outline.labels_of_substitutes`).

The numbers are known for this. `Outline.labels_spec` says that a section shows the ordinals of the
place where it stands in the outline of all, and that its level is the depth of the place.
-/

namespace Folio

open Resolution

/-! ## The sections of a document -/

namespace Prepared

variable {c : Collection} {W : List (String × List Visit)} {s₀ s : Resolution} {d : String}
  {vs : List Visit}

/-- The entries of a registry in the order of the walks. -/
theorem toList_entries (hp : Prepared c W s₀)
    (hsize : s.registry.entries.size = s₀.registry.entries.size) :
    s.registry.entries.toList =
      ((W.flatMap Prod.snd).filterMap Visit.entry?).filterMap s.registry.entryAt? := by
  have hids := hp.entries
  rw [← hsize] at hids
  have hall : (List.range s.registry.entries.size).map (s.registry.entries[·]?) =
      s.registry.entries.toList.map some := by
    refine List.ext_getElem? fun i => ?_
    by_cases hi : i < s.registry.entries.size <;> simp [hi]
  have hmap := congrArg (List.map (s.registry.entries[·]?)) hids
  rw [hall, List.map_map] at hmap
  have hfilter := congrArg (List.filterMap id) hmap
  rw [List.filterMap_map, List.filterMap_map] at hfilter
  exact (hfilter.trans (List.filterMap_some ..)).symm

/-- The entries of a document are those on its walk. -/
theorem entriesOf_eq (hp : Prepared c W s₀) (hkeeps : s₀.Keeps s)
    (hsize : s.registry.entries.size = s₀.registry.entries.size) (hw : (d, vs) ∈ W) :
    s.registry.entriesOf d = (vs.filterMap Visit.entry?).filterMap s.registry.entryAt? := by
  have hdocument : ∀ {d' : String} {vs' : List Visit}, (d', vs') ∈ W →
      ∀ en ∈ (vs'.filterMap Visit.entry?).filterMap s.registry.entryAt?, en.document = d' := by
    intro d' vs' hw' en hen
    obtain ⟨e, he, hentry⟩ := List.mem_filterMap.1 hen
    obtain ⟨typ, hreg⟩ := hp.registered hw' he
    obtain ⟨en', hentry', hd', -⟩ := hreg.keeps hkeeps
    cases hentry.symm.trans hentry'
    exact hd'
  have hnodup : (W.map Prod.fst).Nodup := by
    rw [hp.paths]
    exact hp.ascending.imp fun hlt => by
      rintro rfl
      exact String.lt_irrefl _ hlt
  obtain ⟨pre, post, rfl⟩ := List.append_of_mem hw
  rw [List.map_append, List.map_cons, List.nodup_append] at hnodup
  have hother : ∀ part : List (String × List Visit),
      (∀ p ∈ part, p.1 ≠ d ∧ p ∈ pre ++ (d, vs) :: post) →
      (((part.flatMap Prod.snd).filterMap Visit.entry?).filterMap s.registry.entryAt?).filter
        (·.document = d) = [] := by
    intro part hpart
    refine List.filter_eq_nil_iff.2 fun en hen => ?_
    obtain ⟨e, he, hentry⟩ := List.mem_filterMap.1 hen
    obtain ⟨v, hv, hve⟩ := List.mem_filterMap.1 he
    obtain ⟨⟨d', vs'⟩, hp', hv⟩ := List.mem_flatMap.1 hv
    obtain ⟨hne, hmem⟩ := hpart _ hp'
    have hd' := hdocument hmem en
      (List.mem_filterMap.2 ⟨e, List.mem_filterMap.2 ⟨v, hv, hve⟩, hentry⟩)
    simpa [hd'] using hne
  have hfst : ∀ p ∈ pre ++ post, p.1 ≠ d := by
    obtain ⟨-, hpost, hpre⟩ := hnodup
    intro p hmem heq
    rcases List.mem_append.1 hmem with hmem | hmem
    · exact hpre p.1 (List.mem_map_of_mem hmem) d (List.mem_cons_self ..) heq
    · have hfst := List.mem_map_of_mem (f := Prod.fst) hmem
      rw [heq] at hfst
      exact (List.nodup_cons.1 hpost).1 hfst
  unfold Registry.entriesOf
  rw [hp.toList_entries hsize, List.flatMap_append, List.flatMap_cons, List.filterMap_append,
    List.filterMap_append, List.filterMap_append, List.filterMap_append, List.filter_append,
    List.filter_append, hother pre fun p hp => ⟨hfst p (by simp [hp]), by simp [hp]⟩,
    hother post fun p hp => ⟨hfst p (by simp [hp]), by simp [hp]⟩, List.nil_append,
    List.append_nil]
  exact List.filter_eq_self.2 fun en hen => by simpa using hdocument hw en hen

/-- The sections of a document have the entries on its walk. -/
theorem forall₂_entriesOf (hp : Prepared c W s₀) (hkeeps : s₀.Keeps s)
    (hsize : s.registry.entries.size = s₀.registry.entries.size) (hw : (d, vs) ∈ W) :
    List.Forall₂ (fun e en => s.registry.entryAt? e = some en) (vs.filterMap Visit.entry?)
      (s.registry.entriesOf d) := by
  rw [hp.entriesOf_eq hkeeps hsize hw]
  have hsome : ∀ e ∈ vs.filterMap Visit.entry?, ∃ en, s.registry.entryAt? e = some en := by
    intro e he
    obtain ⟨typ, hreg⟩ := hp.registered hw he
    obtain ⟨en, hen, -⟩ := hreg.keeps hkeeps
    exact ⟨en, hen⟩
  generalize vs.filterMap Visit.entry? = es at hsome ⊢
  induction es with
  | nil => exact .nil
  | cons e es ih =>
    obtain ⟨en, hen⟩ := hsome e (List.mem_cons_self ..)
    rw [List.filterMap_cons_some hen]
    exact .cons hen (ih fun e' he' => hsome e' (List.mem_cons_of_mem e he'))

end Prepared

namespace Resolved

variable {D : Table Description} {c : Collection} {W : List (String × List Visit)}
  {s₀ s₁ s₂ s : Resolution}

theorem entries_size (h : Resolved c W s₀ s₁ s₂ s) :
    s.registry.entries.size = s₀.registry.entries.size := by
  rw [h.settled.entries_size, h.bound.same, h.underway.progress.entries_size]

/-- The label of a section shows the ordinals of the place where it stands. -/
theorem exists_report (h : Resolved c W s₀ s₁ s₂ s)
    (hr : s₀.Regular s₀.options.sectionType s₀.options.sectionType s₁)
    (hrule : ∀ d info separator rule, s₀.info? d = some info →
      Run.newRule s₀.options s₀.options.sectionType
        (info.document.settings.lookup s₀.options.sectionType) = .ok (separator, rule) →
      rule = .numbered s₀.options.sectionType (some 0))
    (ho : s₀.Orderly s₁) {o : String × Nat} {path : List Nat} (hat : StandsAt W s₀ s₁ o path) :
    ∃ report, (s.labels o.1)[o.2]? = some report ∧ report.name = dotted path ∧
      report.level = some ((path.length - 1) % Counter.levelCount) := by
  obtain ⟨e, ⟨vs, hw, hentry⟩, en, q, hen, hq, t, ht, hid⟩ := hat
  obtain ⟨label, ht₂⟩ := h.bound.relabeled.slot q t ht
  rw [← h.numbering_eq] at ht₂
  obtain ⟨l, rfl⟩ := Option.isSome_iff_exists.1 (h.isSome_label ho ht₂)
  have hshows := h.label_eq_of_unled hr hrule ht₂ (by rw [hid]) rfl
  obtain ⟨title, hen'⟩ := h.settled.title e en (by rw [h.bound.same]; exact hen)
  obtain ⟨en', hat, hen''⟩ :=
    getElem?_of_forall₂ (h.prepared.forall₂_entriesOf h.keeps h.entries_size hw) hentry
  cases hen'.symm.trans hen''
  have hlabel : s.labelOf? { en with title } = some l := labelOf?_eq hq ht₂ rfl
  refine ⟨s.labelReport { en with title }, by rw [labels, List.getElem?_map, hat]; rfl, ?_, ?_⟩
  · rw [labelReport_name hlabel, Layout.labelName, hshows.nameWith, hid]
  · rw [labelReport_level hlabel, hshows.level, hid]

end Resolved

/-! ## Outlines are counted plainly -/

theorem Resolution.Inside.inSection {s : Resolution} {f inner : FrameId}
    (h : s.Inside f inner (IsSubRange s.options.sectionType)) : s.InSection inner := by
  obtain ⟨-, frame, -, hframe, -, -, hsort⟩ := h
  cases hk : frame.kind <;> rw [hk] at hsort <;> try exact hsort.elim
  next typ ids range =>
  refine ⟨inner, frame, countingFrame?_self hframe ?_, by simp [hk, FrameKind.IsDocument]⟩
  rw [hk]
  exact decide_eq_true hsort

/-- What is inside of a section is visited inside of sections. -/
theorem Walk.inSection {s : Resolution} {f : FrameId} {ns : List Node} {vs : List Visit}
    (h : Walk s f ns vs) {ds : List NodeDescription} (hm : Outline.Makes ds ns)
    (hf : s.InSection f) : ∀ v ∈ vs, s.InSection v.frame := by
  induction h generalizing ds with
  | nil => simp
  | text | term | expansion => cases hm
  | @labeled f h body rest entry inner ws vs _ hi _ _ _ ihb ihr =>
    cases hm with
    | heading title htyp _ hmb hmr =>
    have htypeIn : h.typeIn s.options = s.options.sectionType := by rw [Heading.typeIn, htyp]; rfl
    rw [htypeIn] at hi
    intro v hv
    rcases List.mem_cons.1 hv with rfl | hv
    · exact hf
    · rcases List.mem_append.1 hv with hv | hv
      · exact ihb hmb hi.inSection v hv
      · exact ihr hmr hf v hv
  | embedding f key location written _ _ _ ih =>
    cases hm with
    | embedding _ _ _ hmr =>
    intro v hv
    rcases List.mem_cons.1 hv with rfl | hv
    · exact hf
    · exact ih hmr hf v hv

/-- Sections of an outline set no rules for what is inside of them. -/
theorem Walk.nested_eq_none {s : Resolution} {f : FrameId} {ns : List Node} {vs : List Visit}
    (h : Walk s f ns vs) {ds : List NodeDescription} (hm : Outline.Makes ds ns) {g : FrameId}
    {hd : Heading} {entry : EntryId} {inner : FrameId} (hv : .heading g hd entry inner ∈ vs) :
    hd.nested = none := by
  induction h generalizing ds with
  | nil => simp at hv
  | text | term | expansion => cases hm
  | labeled f h _ _ _ _ _ ihb ihr =>
    cases hm with
    | heading title _ hnested hmb hmr =>
    rcases List.mem_cons.1 hv with heq | hv
    · cases heq
      exact hnested
    · rcases List.mem_append.1 hv with hv | hv
      · exact ihb hmb hv
      · exact ihr hmr hv
  | embedding f key location written _ _ _ ih =>
    cases hm with
    | embedding _ _ _ hmr =>
    rcases List.mem_cons.1 hv with heq | hv
    · cases heq
    · exact ih hmr hv

namespace Prepared

variable {D : Table Description} {c : Collection} {W : List (String × List Visit)}
  {s₀ : Resolution}

/-- Below a document lies what it embeds, at some depth. -/
theorem under_of_embeds (hp : Prepared c W s₀) (hc : c.DescribedBy D) (hD : Outline.Describes D)
    {root d : String} (hroot : (s₀.info? root).isSome)
    (h : Relation.ReflTransGen (Outline.Embeds D) root d) :
    s₀.Under root d ∧ (s₀.info? d).isSome := by
  induction h with
  | refl => exact ⟨.refl, hroot⟩
  | tail _ hembeds ih =>
    obtain ⟨hunder, hsome⟩ := ih
    obtain ⟨info, hd⟩ := Option.isSome_iff_exists.1 hsome
    obtain ⟨info', location, he, hby⟩ := (hp.embeds_iff hc hD hd).1 hembeds
    exact ⟨.inside he hby hunder, by rw [he]; rfl⟩

/-- A document that no other one refers to is a root. -/
theorem exists_root (hp : Prepared c W s₀) (hc : c.DescribedBy D) (hD : Outline.Describes D)
    {root : String} {description : Description} (hroot : D.lookup root = some description)
    (htop : ∀ base, ¬Outline.Embeds D base root) :
    ∃ info, s₀.info? root = some info ∧ info.embeddedBy = none := by
  have hmem : root ∈ s₀.documents.keys := by
    rw [hp.keys, hc.keys]
    exact Table.mem_keys_iff.2 ⟨description, hroot⟩
  obtain ⟨info, hinfo⟩ := Table.mem_keys_iff.1 hmem
  refine ⟨info, hinfo, ?_⟩
  cases hby : info.embeddedBy with
  | none => rfl
  | some by' =>
    obtain ⟨p, location⟩ := by'
    obtain ⟨outer, -, houter, -⟩ := hp.arranged.embedded root info p location hinfo hby
    exact (htop p ((hp.embeds_iff hc hD houter).2 ⟨info, location, hinfo, hby⟩)).elim

/-- Embedded documents have their references inside of their section. -/
theorem innerReferences (hp : Prepared c W s₀) (hc : c.DescribedBy D) (hD : Outline.Describes D)
    (hone : Outline.Single D) : s₀.InnerReferences := by
  intro d info vs hd hby hw v hv hrequest
  obtain ⟨description, hlookup, -, hm, -⟩ := hp.makes hc hD hd
  obtain ⟨title, body, hnodes⟩ := hp.single hc hD hone hd hby hlookup
  rw [hnodes] at hm
  generalize info.document.nodes = ns at hm hw
  cases hm with
  | @heading _ _ _ h _ _ htyp _ hmb hmr =>
  cases hmr
  cases hw with
  | labeled _ _ _ hi _ hbody hrest =>
  cases hrest
  rw [List.append_nil, List.mem_cons] at hv
  have htypeIn : h.typeIn s₀.options = s₀.options.sectionType := by rw [Heading.typeIn, htyp]; rfl
  rw [htypeIn] at hi
  rcases hv with rfl | hv
  · cases hrequest
  · exact hbody.inSection hmb hi.inSection v hv

/-- No document changes how sections are counted. -/
theorem unset (hp : Prepared c W s₀) (hc : c.DescribedBy D) (hD : Outline.Describes D) :
    s₀.Unset W s₀.options.sectionType s₀.options.sectionType := by
  have hsettings : ∀ d info, s₀.info? d = some info → info.document.settings = [] := by
    intro d info hd
    obtain ⟨-, -, -, -, hsettings⟩ := hp.makes hc hD hd
    exact hsettings
  refine ⟨fun d vs f h entry inner hw hv _ => ?_, fun _ d info hd => ?_, fun d info settings hd hs => ?_⟩
  · obtain ⟨info, hd, hwalk, -⟩ := hp.walk d vs hw
    obtain ⟨description, -, -, hm, -⟩ := hp.makes hc hD hd
    exact hwalk.nested_eq_none hm hv
  · rw [Run.embeddedLevel, hsettings d info hd]
    rfl
  · simp [hsettings d info hd] at hs

theorem newRule_eq (hp : Prepared c W s₀) (hc : c.DescribedBy D) (hD : Outline.Describes D)
    {d : String} {info : DocumentInfo} {separator : String} {rule : LabelRule}
    (hd : s₀.info? d = some info) (hr : Run.newRule s₀.options s₀.options.sectionType
      (info.document.settings.lookup s₀.options.sectionType) = .ok (separator, rule)) :
    rule = .numbered s₀.options.sectionType (some 0) := by
  obtain ⟨-, -, -, -, hsettings⟩ := hp.makes hc hD hd
  rw [hsettings, hp.options, hc.options] at hr
  cases hr
  rw [hp.options, hc.options]
  rfl

/-- Claiming the slots of outlines is regular and orderly, and each root is filled. -/
theorem claimAll_outlined (hp : Prepared c W s₀) (hc : c.DescribedBy D)
    (hD : Outline.Describes D) (hone : Outline.Single D) :
    After True (s₀.order.forM (Run.claimVisits W)) s₀ fun _ t =>
      s₀.Regular s₀.options.sectionType s₀.options.sectionType t ∧ s₀.Orderly t ∧
      ∀ root info, s₀.info? root = some info → info.embeddedBy = none →
        s₀.Filled D W t root [] 0 := by
  have hregular := Run.claimAll_spec hp (hp.regular (hp.unset hc hD))
  have horderly := Run.claimAll_spec hp (hp.orderly (hp.innerReferences hc hD hone))
  refine (hregular.and (horderly.and (Run.claimAll_filled hp hc hD hone))).mono ?_
  rintro _ t ⟨⟨⟨_, hregular⟩, -⟩, ⟨⟨_, horderly⟩, -⟩, hfilled⟩
  exact ⟨hregular, horderly, hfilled⟩

end Prepared

/-! ## The numbers of the sections below a root -/

namespace Outline

/-- A section shows the given ordinals, and its level is their depth. -/
def Shows (s : Resolution) (o : String × Nat) (path : List Nat) : Prop :=
  ∃ report, (s.labels o.1)[o.2]? = some report ∧ report.name = dotted path ∧
    report.level = some ((path.length - 1) % Counter.levelCount)

/-- The references of a document that no other one embeds can be replaced. The outline that arises
consists of the sections of all documents below, and they show the ordinals of their places
there. -/
theorem labels_spec {D : Table Description} {c : Collection} {s : Resolution}
    (hc : c.DescribedBy D) (hD : Describes D) (hone : Single D) (hs : c.resolve = .ok () s)
    {root : String} {description : Description} (hroot : D.lookup root = some description)
    (htop : ∀ base, ¬Embeds D base root) :
    ∃ ns os last, Substitutes D root 0 description.nodes ns os last ∧
      (∀ d, Relation.ReflTransGen (Embeds D) root d → ∀ k, k < (s.labels d).length → (d, k) ∈ os) ∧
      List.Forall₂ (Shows s) os (sections [] 0 ns) := by
  obtain ⟨W, s₀, s₁, s₂, hr, hregular, horderly, hfilled⟩ :=
    hc.described.resolve_spec (fun W s₀ hp => hp.claimAll_outlined hc hD hone) hs
  have hp := hr.prepared
  obtain ⟨info, hinfo, hby⟩ := hp.exists_root hc hD hroot htop
  obtain ⟨description', ns, os, last, hlookup, hsub, -, hall, hstands⟩ :=
    hfilled root info hinfo hby
  cases hroot.symm.trans hlookup
  refine ⟨ns, os, last, hsub, fun d hd k hk => ?_, hstands.imp fun o path hat => ?_⟩
  · obtain ⟨hunder, hsome⟩ := hp.under_of_embeds hc hD (by rw [hinfo]; rfl) hd
    obtain ⟨info', hinfo'⟩ := Option.isSome_iff_exists.1 hsome
    obtain ⟨vs, hw⟩ := hp.exists_walk hinfo'
    have hlength := (hp.forall₂_entriesOf hr.keeps hr.entries_size hw).length_eq
    rw [Resolution.labels, List.length_map, ← hlength] at hk
    exact hall (d, k) _ hunder ⟨vs, hw, List.getElem?_eq_getElem hk⟩
  · exact hr.exists_report hregular (fun d info separator rule hd => hp.newRule_eq hc hD hd)
      horderly hat

/-- In `D'` the document `root` is the single document with the nodes `ns`. All other documents that
are there are as in `D`. -/
structure Replaces (D : Table Description) (root : String) (ns : List NodeDescription)
    (D' : Table Description) : Prop where
  here : D'.lookup root = some { nodes := ns }
  rest : ∀ path description, path ≠ root → D'.lookup path = some description →
    D.lookup path = some description

namespace Replaces

variable {D D' : Table Description} {root : String} {ns : List NodeDescription}

theorem embeds (h : Replaces D root ns D') (hns : references ns = []) {base path : String}
    (he : Embeds D' base path) : base ≠ root ∧ Embeds D base path := by
  obtain ⟨description, hlookup, link, hlink, htarget⟩ := he
  have hne : base ≠ root := by
    rintro rfl
    cases h.here.symm.trans hlookup
    simp [hns] at hlink
  exact ⟨hne, description, h.rest base description hne hlookup, link, hlink, htarget⟩

theorem describes (h : Replaces D root ns D') (hD : Describes D) (hns : Outline ns) :
    Describes D' := by
  intro path description hlookup
  by_cases heq : path = root
  · rw [heq] at hlookup
    cases h.here.symm.trans hlookup
    exact ⟨rfl, hns⟩
  · exact hD path description (h.rest path description heq hlookup)

theorem single (h : Replaces D root ns D') (hone : Single D) (hns : references ns = [])
    (htop : ∀ base, ¬Embeds D base root) : Single D' := by
  intro base path description he hlookup
  obtain ⟨-, he⟩ := h.embeds hns he
  have hne : path ≠ root := by
    rintro rfl
    exact htop base he
  exact hone base path description he (h.rest path description hne hlookup)

end Replaces

/-- The sections of a single document are its sections in their order. -/
theorem shows_of_single {s : Resolution} {root : String} {os : List (String × Nat)}
    {ps : List (List Nat)} (hos : os = (List.range' 0 os.length).map fun k => (root, k))
    (hall : ∀ k, k < (s.labels root).length → (root, k) ∈ os) (h : List.Forall₂ (Shows s) os ps) :
    (s.labels root).length = ps.length ∧
      ∀ k path, ps[k]? = some path → Shows s (root, k) path := by
  have hshows : ∀ k path, ps[k]? = some path → Shows s (root, k) path := by
    intro k path hpath
    obtain ⟨o, ho, hshow⟩ := getElem?_of_forall₂ h.flip hpath
    rw [hos, List.getElem?_map] at ho
    obtain ⟨k', hk', rfl⟩ := Option.map_eq_some_iff.1 ho
    obtain ⟨hlt, hk'⟩ := List.getElem?_eq_some_iff.1 hk'
    rw [List.getElem_range', Nat.zero_add, Nat.one_mul] at hk'
    exact hk' ▸ hshow
  refine ⟨Nat.le_antisymm (Nat.not_lt.1 fun hlt => ?_) (Nat.not_lt.1 fun hlt => ?_), hshows⟩
  · have hmem := hall ps.length hlt
    rw [hos, h.length_eq] at hmem
    simp at hmem
  · obtain ⟨report, hreport, -⟩ := hshows _ _ (List.getElem?_eq_getElem hlt)
    simp at hreport

/-- Embedding is transparent. The references of a root can be replaced by the top level sections of
the documents that they lead to, again and again, until none is left. Each section of a document
below the root has a counterpart then, and when the root is replaced by the document that arises,
both have the same name and the same level. -/
theorem labels_of_substitutes {D : Table Description} {c : Collection} {s : Resolution}
    (hc : c.DescribedBy D) (hD : Describes D) (hone : Single D) (hs : c.resolve = .ok () s)
    {root : String} {description : Description} (hroot : D.lookup root = some description)
    (htop : ∀ base, ¬Embeds D base root) :
    ∃ ns os last, Substitutes D root 0 description.nodes ns os last ∧
      (∀ d, Relation.ReflTransGen (Embeds D) root d → ∀ k, k < (s.labels d).length → (d, k) ∈ os) ∧
      ∀ (D' : Table Description) (c' : Collection) (s' : Resolution), Replaces D root ns D' →
        c'.DescribedBy D' → c'.resolve = .ok () s' →
        List.Forall₂ (fun o report' => ∃ report, (s.labels o.1)[o.2]? = some report ∧
          report.name = report'.name ∧ report.level = report'.level) os (s'.labels root) := by
  obtain ⟨ns, os, last, hsub, hall, hshows⟩ := labels_spec hc hD hone hs hroot htop
  obtain ⟨hns, hnone⟩ := hsub.outline
  refine ⟨ns, os, last, hsub, hall, fun D' c' s' hreplaces hc' hs' => ?_⟩
  obtain ⟨ns', os', last', hsub', hall', hshows'⟩ := labels_spec hc' (hreplaces.describes hD hns)
    (hreplaces.single hone hnone htop) hs' hreplaces.here
    fun base he => htop base (hreplaces.embeds hnone he).2
  obtain ⟨rfl, -, hos'⟩ := hsub'.eq_self hns hnone
  obtain ⟨hlength, hsingle⟩ := shows_of_single hos' (hall' root .refl) hshows'
  refine List.forall₂_iff_get.2 ⟨hshows.length_eq.trans hlength.symm, fun i hi hi' => ?_⟩
  -- both sections show the place at the same position
  obtain ⟨path, hpath, report, hat, hname, hlevel⟩ :=
    getElem?_of_forall₂ hshows (List.getElem?_eq_getElem hi)
  obtain ⟨report', hat', hname', hlevel'⟩ := hsingle i path hpath
  obtain rfl : (s'.labels root)[i] = report' := by
    rw [List.getElem?_eq_getElem hi'] at hat'
    exact Option.some.inj hat'
  exact ⟨report, hat, hname.trans hname'.symm, hlevel.trans hlevel'.symm⟩

/-- The document `/a` embeds `/b` inside of a section, and `/b` embeds `/c` inside of its own. -/
def chain : Table Description :=
  [("/a", { nodes := [.heading none "A" [.embedding "b"], .heading none "B" []] }),
  ("/b", { nodes := [.heading none "C" [.embedding "c", .heading none "D" []]] }),
  ("/c", { nodes := [.heading none "E" []] })]

/-- The documents of the chain. -/
def chainDocuments : Collection where
  documents :=
    [("/a", Collection.plainDocument "/a"
      [Collection.sectionAt "/a" 1 1 0 "A" [.embedding ⟨"/a", 3⟩ ⟨"/a", 2, 1⟩ "b"],
        Collection.sectionAt "/a" 3 4 0 "B" []]),
    ("/b", Collection.plainDocument "/b"
      [Collection.sectionAt "/b" 1 1 0 "C" [.embedding ⟨"/b", 3⟩ ⟨"/b", 2, 1⟩ "c",
        Collection.sectionAt "/b" 3 4 1 "D" []]]),
    ("/c", Collection.plainDocument "/c" [Collection.sectionAt "/c" 1 1 0 "E" []])]

theorem chainDocuments_describedBy : chainDocuments.DescribedBy chain where
  options := rfl
  sorted := by decide +kernel
  keys := rfl
  made path d hd := by
    simp only [chainDocuments, List.mem_cons, Prod.mk.injEq, List.not_mem_nil, or_false] at hd
    rcases hd with ⟨rfl, rfl⟩ | ⟨rfl, rfl⟩ | ⟨rfl, rfl⟩
    · exact ⟨_, rfl, rfl⟩
    · exact ⟨_, rfl, rfl⟩
    · exact ⟨_, rfl, rfl⟩

theorem chain_describes : Describes chain := by
  intro path description hlookup
  have hmem := Table.mem_of_lookup hlookup
  simp only [chain, List.mem_cons, Prod.mk.injEq, List.not_mem_nil, or_false] at hmem
  rcases hmem with ⟨-, rfl⟩ | ⟨-, rfl⟩ | ⟨-, rfl⟩
  · exact ⟨rfl, .heading _ (.embedding "b" rfl .nil) (.heading _ .nil .nil)⟩
  · exact ⟨rfl, .heading _ (.embedding "c" rfl (.heading _ .nil .nil)) .nil⟩
  · exact ⟨rfl, .heading _ .nil .nil⟩

theorem chain_embeds {base path : String} (h : Embeds chain base path) :
    path = "/b" ∨ path = "/c" := by
  obtain ⟨description, hlookup, link, hlink, ht⟩ := h
  have hmem := Table.mem_of_lookup hlookup
  simp only [chain, List.mem_cons, Prod.mk.injEq, List.not_mem_nil, or_false] at hmem
  rcases hmem with ⟨rfl, rfl⟩ | ⟨rfl, rfl⟩ | ⟨rfl, rfl⟩
  · obtain rfl := List.mem_singleton.1 hlink
    exact .inl (Option.some.inj (ht.symm.trans (by decide +kernel)))
  · obtain rfl := List.mem_singleton.1 hlink
    exact .inr (Option.some.inj (ht.symm.trans (by decide +kernel)))
  · cases hlink

/-- The five sections of the chain. -/
theorem labels_of_substitutes_chain : ∃ s, chainDocuments.resolve = .ok () s ∧
    ∃ ns os last, Substitutes chain "/a" 0
        [.heading none "A" [.embedding "b"], .heading none "B" []] ns os last ∧
      (∀ d, Relation.ReflTransGen (Embeds chain) "/a" d →
        ∀ k, k < (s.labels d).length → (d, k) ∈ os) ∧
      ∀ (D' : Table Description) (c' : Collection) (s' : Resolution), Replaces chain "/a" ns D' →
        c'.DescribedBy D' → c'.resolve = .ok () s' →
        List.Forall₂ (fun o report' => ∃ report, (s.labels o.1)[o.2]? = some report ∧
          report.name = report'.name ∧ report.level = report'.level) os (s'.labels "/a") := by
  obtain ⟨s, hs⟩ := chainDocuments.exists_resolve (by decide +kernel)
  have hone : Single chain := by
    intro base path description he hlookup
    rcases chain_embeds he with rfl | rfl
    · cases (show chain.lookup "/b" = _ from rfl).symm.trans hlookup
      exact ⟨_, _, rfl⟩
    · cases (show chain.lookup "/c" = _ from rfl).symm.trans hlookup
      exact ⟨_, _, rfl⟩
  have hroot : chain.lookup "/a" =
      some { nodes := [.heading none "A" [.embedding "b"], .heading none "B" []] } := rfl
  refine ⟨s, hs, labels_of_substitutes chainDocuments_describedBy chain_describes hone hs hroot
    fun base he => ?_⟩
  simpa using chain_embeds he

end Outline

end Folio
