import Folio.Proofs.LabeledNodes
import Folio.Proofs.Outline
import Folio.Proofs.Resolution.Leading

/-!
# Figures that follow the sections

Documents may declare that figures follow sections. The label of a figure has the name of a section
in front then, and the numbers behind it start again with each other section. Two figures of a root
have different names, unless the numbers have started again between them with the same section in
front (`Figures.restarts_of_name_eq`).

That does happen. An embedded document is walked after the one that embeds it, and its figures follow
the section that the document stands in for again, while figures of later sections were counted in
the meantime (`Figures.not_forall_name_ne`).
-/

namespace Folio

open Resolution

namespace Figures

/-- Figures follow sections, with a dash between both numbers. -/
def declaration : String := "figure:-numbered master=section"

/-- What the declaration configures for figures. -/
def settings (location : Location) : TypeSettings where
  location := location
  rule := some (.numbered "figure" none)
  separator := "-"
  master := some "section"

theorem read?_declaration : Declaration.read? declaration =
    .ok { name := "figure", rule := some (.numbered "figure" none), separator := "-",
          master := some "section" } := by
  decide +kernel

theorem run_declare (location : Location) :
    (Settings.declare location declaration).run [] = .ok () [("figure", settings location)] := by
  unfold Settings.declare
  rw [read?_declaration]
  rfl

/-- Settings that say at most that figures follow sections. -/
def Configures (s : Settings) : Prop :=
  ∀ typ configured, s.lookup typ = some configured →
    typ = "figure" ∧ ∃ location, configured = settings location

/-- What a document configures that declares nothing besides that figures follow sections. -/
theorem configures_of_ofDescription? {path : String} {description : Description} {d : Document}
    (h : Document.ofDescription? path description = .ok d)
    (hd : description.declarations = [] ∨ description.declarations = [declaration]) :
    Configures d.settings := by
  obtain ⟨⟨p, hs⟩, -⟩ := Document.run_of_ofDescription? h
  intro typ configured hlookup
  rcases hd with hd | hd
  · rw [hd] at hs
    rw [← (Prod.mk.inj (Except.ok.inj hs)).1] at hlookup
    simp at hlookup
  · rw [hd, Document.declarations] at hs
    obtain ⟨location, p', -, hs⟩ := Document.run_bind hs
    rw [run_declare location] at hs
    rw [← (Prod.mk.inj (Except.ok.inj hs)).1, Table.lookup_cons] at hlookup
    split at hlookup
    next htyp =>
      cases hlookup
      exact ⟨htyp, location, rfl⟩
    · simp at hlookup

/-- Documents that declare at most that figures follow sections, and whose nodes set no rules. -/
def Describes (D : Table Description) : Prop :=
  ∀ path description, D.lookup path = some description → description.ruled = false ∧
    (description.declarations = [] ∨ description.declarations = [declaration])

namespace Configures

variable {s : Settings} {typ : String} {separator : String} {rule : LabelRule}

theorem section_eq_none (h : Configures s) : s.lookup "section" = none := by
  cases hs : s.lookup "section" with
  | none => rfl
  | some configured => exact absurd (h "section" configured hs).1 (by decide)

/-- Figures and sections are counted with plain numbers from the first level on. -/
theorem rule_eq (h : Configures s) (htyp : typ = "figure" ∨ typ = "section")
    (hr : Run.newRule {} typ (s.lookup typ) = .ok (separator, rule)) :
    rule = .numbered typ (some 0) := by
  cases hs : s.lookup typ with
  | none =>
    rw [hs] at hr
    cases hr
    rfl
  | some configured =>
    obtain ⟨rfl, location, rfl⟩ := h typ configured hs
    rw [hs] at hr
    cases hr
    rfl

/-- What has a master is led by sections of any depth, and a dash stands behind their names. -/
theorem lead_eq (h : Configures s) {lead : String}
    (hl : (s.lookup typ).bind TypeSettings.master = some lead)
    (hr : Run.newRule {} typ (s.lookup typ) = .ok (separator, rule)) :
    lead = "section" ∧ (s.lookup typ).bind TypeSettings.limit = none ∧ separator = "-" := by
  obtain ⟨configured, hs, hl⟩ := Option.bind_eq_some_iff.1 hl
  obtain ⟨rfl, location, rfl⟩ := h typ configured hs
  rw [hs] at hr ⊢
  cases hl
  cases hr
  exact ⟨rfl, rfl, rfl⟩

end Configures

end Figures

namespace Prepared

variable {D : Table Description} {c : Collection} {W : List (String × List Visit)}
  {s₀ : Resolution}

theorem configures (hp : Prepared c W s₀) (hc : c.DescribedBy D) (hD : Figures.Describes D)
    {d : String} {info : DocumentInfo} (hd : s₀.info? d = some info) :
    Figures.Configures info.document.settings := by
  obtain ⟨description, hlookup, hmade⟩ := hc.made d _ (hp.info d info hd).1
  exact Figures.configures_of_ofDescription? hmade (hD d description hlookup).2

/-- No node sets a rule. -/
theorem unruled (hp : Prepared c W s₀) (hc : c.DescribedBy D) (hD : Figures.Describes D)
    {d : String} {vs : List Visit} {f : FrameId} {h : Heading} {entry : EntryId} {inner : FrameId}
    (hw : (d, vs) ∈ W) (hv : .heading f h entry inner ∈ vs) : h.nested = none := by
  obtain ⟨path, document, hmem, hh⟩ := hp.written d vs hw h (List.mem_filterMap.2 ⟨_, hv, rfl⟩)
  obtain ⟨description, hlookup, hmade⟩ := hc.made path document hmem
  obtain ⟨-, -, -, -, hnested⟩ := Document.numbered_of_ofDescription? hmade
  exact hnested (hD path description hlookup).1 h hh

/-- Sections lead figures, and nothing leads sections. -/
theorem ledBy (hp : Prepared c W s₀) (hc : c.DescribedBy D) (hD : Figures.Describes D) :
    s₀.LedBy W "section" "-" where
  unset :=
    { nested := fun _ _ _ _ _ _ hw hv _ => hp.unruled hc hD hw hv
      level := fun htyp d info hd => by
        rw [← htyp, Run.embeddedLevel, (hp.configures hc hD hd).section_eq_none]
        rfl
      master := fun d info configured hd hs => by
        rw [(hp.configures hc hD hd).section_eq_none] at hs
        cases hs }
  unruled _ _ _ _ _ _ hw hv := hp.unruled hc hD hw hv
  lead d info typ lead separator rule hd hl hr := by
    rw [hp.options, hc.options] at hr
    exact (hp.configures hc hD hd).lead_eq hl hr

/-- Claiming keeps figures in the trees of their roots, and no two entries share a slot. -/
theorem claimAll_led (hp : Prepared c W s₀) (hc : c.DescribedBy D) (hD : Figures.Describes D) :
    After True (s₀.order.forM (Run.claimVisits W)) s₀ fun _ t => s₀.InnerReferences →
      (∃ d, s₀.Planted "section" "-" d t) ∧ s₀.Regular "section" "figure" t ∧ s₀.Owned t := by
  have hled := hp.ledBy hc hD
  have hunset : s₀.Unset W "section" "figure" :=
    { hled.unset with
      nested := fun _ _ _ _ _ _ hw hv _ => hp.unruled hc hD hw hv
      level := fun htyp => by
        rw [hp.options, hc.options] at htyp
        exact absurd htyp (by decide) }
  by_cases hinner : s₀.InnerReferences
  · refine ((Run.claimAll_spec hp (hp.planted hinner hled)).and
      ((Run.claimAll_spec hp (hp.regular hunset)).and
        (Run.claimAll_spec hp (hp.owned hinner)))).mono ?_
    rintro _ t ⟨⟨hplanted, -⟩, ⟨⟨_, hregular⟩, -⟩, ⟨_, howned⟩, -⟩ -
    exact ⟨hplanted, hregular, howned⟩
  · exact .trivial fun _ _ _ h => (hinner h).elim

end Prepared

/-- Documents keep their places. -/
theorem Resolved.rooted {c : Collection} {W : List (String × List Visit)}
    {s₀ s₁ s₂ s : Resolution} {root d : String} (h : Resolved c W s₀ s₁ s₂ s)
    (hd : Rooted s root d) : Rooted s₀ root d := by
  have hinfo : ∀ {path info}, s.info? path = some info →
      ∃ old, s₀.info? path = some old ∧ info.embeddedBy = old.embeddedBy := by
    intro path info hpath
    rw [info?, h.settled.same, h.bound.same] at hpath
    obtain ⟨old, hold, heq⟩ := h.underway.progress.info_of hpath
    exact ⟨old, hold, by rw [heq]⟩
  induction hd with
  | top htop hnone =>
    obtain ⟨old, hold, heq⟩ := hinfo htop
    exact .top hold (heq ▸ hnone)
  | inside hd hby _ ih =>
    obtain ⟨old, hold, heq⟩ := hinfo hd
    exact .inside hold (heq ▸ hby) ih

namespace Figures

/-- Documents that nobody embeds declare that figures follow sections. Nothing else is declared, and
no node sets a rule. -/
structure Declares (D : Table Description) (s : Resolution) : Prop where
  root : ∀ path description, D.lookup path = some description → s.embeddedBy? path = none →
    description.declarations = [declaration]
  embedded : ∀ path description, D.lookup path = some description →
    s.embeddedBy? path ≠ none → description.declarations = []
  unruled : ∀ path description, D.lookup path = some description → description.ruled = false

theorem Declares.describes {D : Table Description} {s : Resolution} (h : Declares D s) :
    Describes D := by
  intro path description hlookup
  refine ⟨h.unruled path description hlookup, ?_⟩
  by_cases hby : s.embeddedBy? path = none
  · exact .inr (h.root path description hlookup hby)
  · exact .inl (h.embedded path description hlookup hby)

/-- An entry is that of a figure in a root, or in a document that is embedded below it. -/
structure Below (s : Resolution) (root : String) (e : EntryId) (entry : Entry) : Prop where
  found : s.registry.entryAt? e = some entry
  typ : entry.id.typ = "figure"
  rooted : Rooted s root entry.document

/-- Two figures of a root with the same name follow the same section. Among the figures at the top of
their type, one between them, or between those that they lie in, follows another section. -/
theorem restarts_of_name_eq {D : Table Description} {c : Collection} {s : Resolution}
    (hc : c.DescribedBy D) (hs : c.resolve = .ok () s) (hD : Declares D s)
    (hinner : s.InnerReferences) {root : String} {e e' : EntryId} {entry entry' : Entry}
    (he : Below s root e entry) (he' : Below s root e' entry') (hne : e ≠ e')
    (hname : (s.labelReport entry).name = (s.labelReport entry').name) :
    ∃ q q', entry.slot = some q ∧ entry'.slot = some q' ∧ s.numbering.layout.Restarts q q' := by
  have hdescribes := hD.describes
  obtain ⟨W, s₀, s₁, s₂, hr, hclaimed⟩ :=
    hc.described.resolve_spec (fun W s₀ hp => hp.claimAll_led hc hdescribes) hs
  have hp := hr.prepared
  obtain ⟨⟨d, hplanted⟩, hregular, howned⟩ := hclaimed
    (hr.underway.progress.innerReferences (hr.bound.keeps.trans hr.settled.keeps)
      (by rw [hr.settled.same, hr.bound.same]) (by rw [hr.settled.same, hr.bound.same]) hinner)
  rw [show "-" = String.singleton '-' by decide] at hplanted
  have hrule : ∀ typ, typ = "figure" ∨ typ = "section" → ∀ d info separator rule,
      s₀.info? d = some info →
      Run.newRule s₀.options typ (info.document.settings.lookup typ) = .ok (separator, rule) →
      rule = .numbered typ (some 0) := by
    intro typ htyp d info separator rule hd hr
    rw [hp.options, hc.options] at hr
    exact (hp.configures hc hdescribes hd).rule_eq htyp hr
  obtain ⟨f, q, a, m, k, t, u, hq, hnamed⟩ :=
    hr.exists_named hplanted hregular hrule he.found he.typ (hr.rooted he.rooted)
  obtain ⟨f', q', a', m', k', t', u', hq', hnamed'⟩ :=
    hr.exists_named hplanted hregular hrule he'.found he'.typ (hr.rooted he'.rooted)
  have hslots : q ≠ q' := by
    rintro rfl
    obtain ⟨old, title, hold, rfl⟩ := hr.exists_entry he.found
    obtain ⟨old', title', hold', rfl⟩ := hr.exists_entry he'.found
    exact hne (howned.inj e old e' old' q hold hold' hq hq')
  refine ⟨q, q', hq, hq', ?_⟩
  rw [hr.numbering_eq]
  refine hr.bound.relabeled.restarts ?_
  rw [← hname] at hnamed'
  exact hnamed.restarts hnamed' hregular.typed hregular.ordered
    (fun typ e he => (hplanted.own root typ e he).root) (by decide) hslots

/-! ## Numbers that come back -/

/-- A figure under its number. -/
def figureAt (path : String) (line node depth : Nat) (title : String) : Node :=
  .labeled {
    key := ⟨path, node⟩, location := ⟨path, line, depth⟩, typ := some "figure", tag := none
    title := ⟨⟨path, line, depth⟩, [.text title]⟩, nested := none } []

/-- The document `/b` is embedded in the first section of `/a`. It has a figure, as each of the
sections of `/a` has. -/
def returning : Table Description :=
  [("/a", {
    declarations := [declaration]
    nodes := [.heading none "A" [.embedding "b", .subRange "figure" none "X" none []],
      .heading none "C" [.subRange "figure" none "Z" none []]] }),
  ("/b", { nodes := [.heading none "B" [.subRange "figure" none "Y" none []]] })]

/-- The documents described by `returning`. -/
def returningDocuments : Collection where
  documents :=
    [("/a", {
      path := "/a"
      template := false
      settings := [("figure", settings ⟨"/a", 1, 0⟩)]
      blocks := []
      nodes :=
        [Collection.sectionAt "/a" 2 1 0 "A"
          [.embedding ⟨"/a", 3⟩ ⟨"/a", 3, 1⟩ "b", figureAt "/a" 4 4 1 "X"],
        Collection.sectionAt "/a" 5 6 0 "C" [figureAt "/a" 6 8 1 "Z"]] }),
    ("/b", Collection.plainDocument "/b"
      [Collection.sectionAt "/b" 1 1 0 "B" [figureAt "/b" 2 3 1 "Y"]])]

theorem returningDocuments_describedBy : returningDocuments.DescribedBy returning where
  options := rfl
  sorted := by decide +kernel
  keys := rfl
  made path d hd := by
    simp only [returningDocuments, List.mem_cons, Prod.mk.injEq, List.not_mem_nil, or_false] at hd
    rcases hd with ⟨rfl, rfl⟩ | ⟨rfl, rfl⟩
    · exact ⟨_, rfl, rfl⟩
    · exact ⟨_, rfl, rfl⟩

/-- The type, the document and the name of an entry. -/
def shown? (s : Resolution) (e : EntryId) : Option (String × String × String) :=
  (s.registry.entryAt? e).map fun entry =>
    (entry.id.typ, entry.document, (s.labelReport entry).name)

theorem returning_cases {path : String} {description : Description}
    (h : returning.lookup path = some description) : description.ruled = false ∧
      (path = "/a" ∧ description.declarations = [declaration] ∨
        path = "/b" ∧ description.declarations = []) := by
  have hmem := Table.mem_of_lookup h
  simp only [returning, List.mem_cons, Prod.mk.injEq, List.not_mem_nil, or_false] at hmem
  rcases hmem with ⟨rfl, rfl⟩ | ⟨rfl, rfl⟩
  · exact ⟨rfl, .inl ⟨rfl, rfl⟩⟩
  · exact ⟨rfl, .inr ⟨rfl, rfl⟩⟩

/-- The figure of `/b` has the name of the first figure of `/a`. -/
theorem exists_returning : ∃ s, returningDocuments.resolve = .ok () s ∧ Declares returning s ∧
    s.InnerReferences ∧ ∃ entry entry', Below s "/a" ⟨1⟩ entry ∧ Below s "/a" ⟨5⟩ entry' ∧
      (s.labelReport entry).name = (s.labelReport entry').name := by
  obtain ⟨s, hs, ha, hb, hx, hy⟩ := returningDocuments.exists_resolve_and
    (P := fun s => (s.info? "/a").map DocumentInfo.embeddedBy = some none ∧
      s.embeddedBy? "/b" = some "/a" ∧ shown? s ⟨1⟩ = some ("figure", "/a", "1.1-1") ∧
      shown? s ⟨5⟩ = some ("figure", "/b", "1.1-1")) (by decide +kernel)
  obtain ⟨a, hinfo, hnone⟩ := Option.map_eq_some_iff.1 ha
  obtain ⟨x, hx, heqx⟩ := Option.map_eq_some_iff.1 hx
  obtain ⟨y, hy, heqy⟩ := Option.map_eq_some_iff.1 hy
  simp only [Prod.mk.injEq] at heqx heqy
  obtain ⟨htx, hdx, hnx⟩ := heqx
  obtain ⟨hty, hdy, hny⟩ := heqy
  obtain ⟨by', hby, heq⟩ := Option.map_eq_some_iff.1 hb
  obtain ⟨b, hinfob, hby⟩ := Option.bind_eq_some_iff.1 hby
  have htop : Rooted s "/a" "/a" := .top hinfo hnone
  have hinside : Rooted s "/a" "/b" := .inside hinfob (hby.trans (by rw [← heq])) htop
  have ha' : s.embeddedBy? "/a" = none := by rw [embeddedBy?, hinfo, Option.bind_some, hnone]; rfl
  refine ⟨s, hs, ⟨fun path description hlookup h => ?_, fun path description hlookup h => ?_,
    fun path description hlookup => ?_⟩, fun d info vs hd hembedded hw v hv hrequest => ?_, x, y,
    ⟨hx, htx, hdx ▸ htop⟩, ⟨hy, hty, hdy ▸ hinside⟩, hnx.trans hny.symm⟩
  · obtain ⟨-, ⟨-, hdeclares⟩ | ⟨rfl, -⟩⟩ := returning_cases hlookup
    · exact hdeclares
    · cases hb.symm.trans h
  · obtain ⟨-, ⟨rfl, -⟩ | ⟨-, hdeclares⟩⟩ := returning_cases hlookup
    · exact (h ha').elim
    · exact hdeclares
  · exact (returning_cases hlookup).1
  · obtain ⟨W, s₀, s₁, s₂, hr, -⟩ := returningDocuments_describedBy.described.resolve_spec
      (J := fun _ _ _ => True) (fun _ _ _ => After.trivial fun _ _ _ => trivial) hs
    have hmem := hr.document_mem hd
    simp only [returningDocuments, List.mem_cons, Prod.mk.injEq, List.not_mem_nil, or_false] at hmem
    rcases hmem with ⟨rfl, -⟩ | ⟨rfl, hdocument⟩
    · cases hinfo.symm.trans hd
      simp [hnone] at hembedded
    · rw [hdocument] at hw
      cases hw with
      | labeled _ _ _ _ _ hbody hrest =>
      cases hrest
      cases hbody with
      | labeled _ _ _ _ _ hbody hrest =>
      cases hbody
      cases hrest
      simp only [List.append_nil, List.mem_cons, List.not_mem_nil, or_false] at hv
      rcases hv with rfl | rfl <;> cases hrequest

/-- The two figures that have the same name. -/
theorem restarts_of_name_eq_returning : ∃ s, returningDocuments.resolve = .ok () s ∧
    ∃ entry entry' q q', Below s "/a" ⟨1⟩ entry ∧ Below s "/a" ⟨5⟩ entry' ∧
      (s.labelReport entry).name = (s.labelReport entry').name ∧ entry.slot = some q ∧
      entry'.slot = some q' ∧ s.numbering.layout.Restarts q q' := by
  obtain ⟨s, hs, hD, hinner, x, y, hx, hy, hname⟩ := exists_returning
  obtain ⟨q, q', hq, hq', hrestarts⟩ := restarts_of_name_eq returningDocuments_describedBy hs hD
    hinner hx hy (by decide) hname
  exact ⟨s, hs, x, y, q, q', hx, hy, hname, hq, hq', hrestarts⟩

/-- Figures of a root need not have different names. -/
theorem not_forall_name_ne : ¬∀ (D : Table Description) (c : Collection) (s : Resolution),
    c.DescribedBy D → c.resolve = .ok () s → Declares D s →
    ∀ root e e' entry entry', Below s root e entry → Below s root e' entry' → e ≠ e' →
      (s.labelReport entry).name ≠ (s.labelReport entry').name := by
  intro h
  obtain ⟨s, hs, hD, -, x, y, hx, hy, hname⟩ := exists_returning
  exact h returning returningDocuments s returningDocuments_describedBy hs hD "/a" ⟨1⟩ ⟨5⟩ x y hx hy
    (by decide) hname

end Figures

end Folio
