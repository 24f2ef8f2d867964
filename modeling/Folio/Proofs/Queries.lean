import Folio.Proofs.LabeledNodes
import Folio.Proofs.QualifiedLinks
import Folio.Proofs.Resolution.Enrolling

/-!
# References and queries

A reference in the text of a document looks for its target in the scope of the document, a query
about a link that is written in the document goes to the index of all documents. Both make the link
absolute first, and only queries add the path of the document to a bare anchor. Still they find the
same (`Collection.Gathered.lookupTarget_eq_address`).
-/

namespace Folio

/-- Collections that come about when documents are made from descriptions and added. -/
inductive Collection.Gathered : Collection → Prop
  | start (options : Options) : Gathered { options }
  | add {c c' : Collection} {d : Document} (path : String) (description : Description) :
    Gathered c → Document.ofDescription? path description = .ok d → c.add d = .ok c' → Gathered c'

namespace Collection.Gathered

variable {c : Collection}

/-- A document that is added has an absolute path. -/
theorem add_eq_ok {c c' : Collection} {d : Document} (h : c.add d = .ok c') :
    Path.isAbs d.path = true ∧ c' = { c with documents := c.documents.put d.path d } := by
  unfold Collection.add at h
  split at h
  · cases h
  next habs =>
    split at h
    · cases h
    · cases h
      exact ⟨by simpa using habs, rfl⟩

theorem described (h : c.Gathered) : c.Described := by
  induction h with
  | start options => exact ⟨.nil, fun path d hd => by cases hd⟩
  | @add c c' d path description _ hd hadd ih =>
    obtain ⟨-, rfl⟩ := add_eq_ok hadd
    have hsorted := Table.sorted_put ih.sorted d.path d
    refine ⟨hsorted, fun p e he => ?_⟩
    have hlookup := Table.lookup_of_mem hsorted he
    rw [Table.lookup_put] at hlookup
    split at hlookup
    next heq =>
      cases hlookup
      rw [heq, (Document.numbered_of_ofDescription? hd).1]
      exact ⟨description, hd⟩
    · exact ih.made p e (Table.mem_of_lookup hlookup)

theorem isAbs (h : c.Gathered) : ∀ path ∈ c.documents.keys, Path.isAbs path = true := by
  induction h with
  | start options => intro path hpath; cases hpath
  | @add c c' d path description _ hd hadd ih =>
    obtain ⟨habs, rfl⟩ := add_eq_ok hadd
    intro p hp
    rcases Table.mem_keys_put.1 hp with rfl | hp
    · exact habs
    · exact ih p hp

/-- When all is resolved, the registry is as registration has left it, but for what was found out
about labeled nodes, and documents have their scopes. -/
theorem registered (h : c.Gathered) {s : Resolution} (hs : c.resolve = .ok () s) :
    (∃ r : Registry, r.Reached ∧ r.Aside s.registry) ∧ s.Filed := by
  obtain ⟨W, sᵣ, s₀, s₁, s₂, hu, hr, -⟩ := h.described.underlies_spec
    (J := fun _ _ _ _ => True) (fun _ _ _ _ => After.trivial fun _ _ _ => trivial) hs
  obtain ⟨hreached, hfiled⟩ := (h.described.registerAll_enrolls h.isAbs).of_ok hu.registered
  obtain ⟨s', ho, hroute⟩ := hu.arranged
  have h₀ : s₀.registry = sᵣ.registry := by rw [hroute.same, ho.same]
  have h₂ : s₂.registry = s₁.registry := by rw [hr.bound.same]
  have hregistry : s.registry = { sᵣ.registry with entries := s.registry.entries } := by
    rw [hr.settled.registry, h₂, hr.underway.progress.registry, h₀]
  refine ⟨⟨sᵣ.registry, hreached, .of_entries hregistry ?_ fun i e he => ?_⟩,
    fun d info hinfo => ?_⟩
  · rw [hr.settled.entries_size, h₂, hr.underway.progress.entries_size, h₀]
  · obtain ⟨slot, abbreviation, he₁, -⟩ := hr.underway.progress.slots i e (h₀ ▸ he)
    obtain ⟨title, he₂⟩ := hr.settled.title i _ (h₂ ▸ he₁)
    exact ⟨_, he₂, rfl⟩
  · have hscope : s.registry.documentScope? d = sᵣ.registry.documentScope? d := by
      rw [hregistry]
      rfl
    obtain ⟨info₀, hinfo₀, heq⟩ := hr.exists_info hinfo
    obtain ⟨info₁, hinfo₁, requests, embeddedBy, root, rfl, -⟩ := hroute.exists_registered ho hinfo₀
    rw [hscope, hfiled d info₁ hinfo₁, heq]

/-- When all is resolved, scopes and index agree, and documents have their scopes. -/
theorem synced (h : c.Gathered) {s : Resolution} (hs : c.resolve = .ok () s) :
    s.registry.Synced ∧ s.Filed := by
  obtain ⟨⟨r, hreached, haside⟩, hfiled⟩ := h.registered hs
  exact ⟨haside.synced hreached.synced, hfiled⟩

end Collection.Gathered

namespace Registry

variable {r : Registry}

/-- An anchor in a document is found from the top of the document without its path, and from
everywhere with it. -/
theorem Synced.lookupTarget_anchor (h : r.Synced) {d : String} {σ : ScopeId}
    (hd : r.documentScope? d = some σ) {anchor : String} (hne : anchor ≠ "")
    (hrel : Path.isAbs anchor = false) : r.lookupTarget σ (.place "" anchor) =
      (r.address? (.place d anchor)).map Address.target := by
  obtain ⟨sc, hσ, -, hchain⟩ := h.staticChain_of_document hd
  have hnone : r.address? (.place "" anchor) = none := by
    cases haddress : r.address? (.place "" anchor) with
    | none => rfl
    | some address =>
      obtain ⟨τ, hτ⟩ := Option.isSome_iff_exists.1 (h.place _ _ _ haddress)
      exact (Path.ne_empty_of_isAbs (h.document "" τ hτ).1 rfl).elim
  have hat : atAnchor Scope.anchors (.place "" anchor) sc = sc.anchors.lookup anchor := by
    simp [atAnchor, Scope.anchorOf, Link.isTag, Link.path, Link.anchor, hne]
  have hfind : r.findStatic σ (atAnchor Scope.anchors (.place "" anchor)) =
      sc.anchors.lookup anchor := by
    unfold findStatic
    rw [hchain, List.findSome?_singleton, hσ, Option.bind_some, hat]
  rw [lookupTarget, hfind, hnone, h.anchor d σ sc anchor hd hσ hne hrel]
  cases sc.anchors.lookup anchor <;> rfl

/-- What a link that stands in a document means at its top is what it means everywhere, once it is
made absolute. -/
theorem Synced.lookupTarget_abs? (h : r.Synced) {d : String} {σ : ScopeId}
    (hd : r.documentScope? d = some σ) {link : Link} (habs : Path.isAbs link.anchor = link.isTag)
    (hv : link.isValid = true) : (link.abs? d false).map (r.lookupTarget σ) =
      (link.abs? d true).map fun l => (r.address? l).map Address.target := by
  have hqualified : ∀ l : Link, Path.isAbs l.anchor = l.isTag → l.isTag = true ∨ l.path ≠ "" →
      (Except.ok l : Except LinkError Link).map (r.lookupTarget σ) =
        (Except.ok l : Except LinkError Link).map fun l => (r.address? l).map Address.target := by
    intro l hl hne
    rw [Except.map, Except.map, h.lookupTarget_eq σ hl hne, h.innerTarget?_of_document hd]
    rfl
  cases link with
  | tag name => exact hqualified (.tag name) habs (.inl rfl)
  | place path anchor =>
    have hrel : Path.isAbs anchor = false := habs
    by_cases hpath : path = ""
    · subst hpath
      have hne : anchor ≠ "" := by simpa [Link.isValid] using hv
      exact congrArg Except.ok (h.lookupTarget_anchor hd hne hrel)
    · simp only [Link.abs?, if_neg hpath]
      split
      · exact hqualified (.place path anchor) hrel (.inr hpath)
      · split
        · rfl
        · refine hqualified (.place (Path.join (Path.dir d) path) anchor) hrel (.inr ?_)
          dsimp only [Link.path]
          exact Path.join_ne_empty (Path.dir d) hpath

end Registry

/-- A reference at the top of a document and a query about the same link find the same target, and
they fail for the same links. -/
theorem Collection.Gathered.lookupTarget_eq_address {c : Collection} (h : c.Gathered)
    {s : Resolution} (hs : c.resolve = .ok () s) {d : String} {info : DocumentInfo}
    (hd : s.info? d = some info) {asAnchor : Bool} {text : String} {link : Link}
    (hl : Link.read? asAnchor text = .ok link) (hv : link.isValid = true) :
    (link.abs? d false).map (s.registry.lookupTarget info.scope) =
      (link.abs? d true).map fun l => (s.registry.address? l).map Address.target := by
  obtain ⟨hsynced, hfiled⟩ := h.synced hs
  exact hsynced.lookupTarget_abs? (hfiled d info hd) (Link.isAbs_anchor_of_read? hl) hv

theorem Collection.innerReference_gathered : Collection.innerReference.Gathered := by
  have ha : Gathered { documents := [("/a", plainDocument "/a"
      [sectionAt "/a" 1 1 0 "X" [], .embedding ⟨"/a", 3⟩ ⟨"/a", 2, 0⟩ "b"])] } :=
    .add "/a" { nodes := [.heading none "X" [], .embedding "b"] } (.start {}) rfl rfl
  exact .add "/b" { nodes := [.heading none "Y" []] } ha rfl rfl

/-- From `/a`, the section of `/b` is found under its path. -/
theorem Collection.lookupTarget_eq_address_innerReference : ∃ s info,
    Collection.innerReference.resolve = .ok () s ∧ s.info? "/a" = some info ∧
    Link.read? true "b#section-1" = .ok (.place "b" "section-1") ∧
    (Link.place "b" "section-1").isValid = true ∧
    ((Link.place "b" "section-1").abs? "/a" false).map (s.registry.lookupTarget info.scope) =
      .ok (some (.entry ⟨1⟩)) := by
  obtain ⟨s, hs, hinfo, haddress⟩ := Collection.innerReference.exists_resolve_and
    (P := fun s => (s.info? "/a").isSome ∧
      (s.registry.address? (.place "/b" "section-1")).map Address.target = some (.entry ⟨1⟩))
    (by decide +kernel)
  obtain ⟨info, hinfo⟩ := Option.isSome_iff_exists.1 hinfo
  have hread : Link.read? true "b#section-1" = .ok (.place "b" "section-1") := by decide +kernel
  have habs : (Link.place "b" "section-1").abs? "/a" true = .ok (.place "/b" "section-1") := by
    decide +kernel
  have hvalid : (Link.place "b" "section-1").isValid = true := by decide +kernel
  refine ⟨s, info, hs, hinfo, hread, hvalid, ?_⟩
  rw [innerReference_gathered.lookupTarget_eq_address hs hinfo hread hvalid, habs]
  exact congrArg Except.ok haddress

end Folio
