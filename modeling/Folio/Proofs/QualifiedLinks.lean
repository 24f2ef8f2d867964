import Folio.Proofs.LinkTexts
import Folio.Proofs.Scope.Synced

/-!
# What qualified links mean

A link is *qualified* if it is to a tag or names its document by an absolute path. The index of all
documents holds one target for such a link. From most places this is what the link leads to: always
for tags, for whole documents, for the anchors of other documents, and from the top of every
document. But a labeled node that is registered in an expansion is known there under the tag it was
given, and outside under this tag with the name of the expansion in front. A link with the path of
the document is read as a link inside the document, so an expansion in the same document finds the
node under the shorter name first (`Registry.innerTarget?`). There is no other exception
(`Registry.Reached.lookupTarget_qualified`).
-/

namespace Folio

namespace Registry

variable {r : Registry}

/-- The labeled node that a link with a path leads to by a name that an expansion in the document at
this path knows. The innermost static parent that knows one counts. -/
def innerTarget? (r : Registry) (σ : ScopeId) (link : Link) : Option EntryId :=
  r.findStatic σ fun sc =>
    if sc.parent.isSome ∧ link.isTag = false ∧ link.path = sc.document ∧ link.anchor ≠ ""
    then sc.anchors.lookup link.anchor else none

/-- Tags have the same meaning in expansions. -/
theorem innerTarget?_tag (σ : ScopeId) (name : String) : r.innerTarget? σ (.tag name) = none := by
  refine List.findSome?_eq_none_iff.2 fun τ _ => ?_
  cases r.scope? τ <;> simp [Link.isTag]

/-- The scope of a document has no static parents. -/
theorem Synced.staticChain_of_document (h : r.Synced) {d : String} {σ : ScopeId}
    (hd : r.documentScope? d = some σ) : ∃ sc, r.scope? σ = some sc ∧ sc.parent = none ∧
      r.staticChain σ = [σ] := by
  obtain ⟨-, -, sc, hσ, hp, -⟩ := h.document d σ hd
  obtain ⟨n, hn⟩ : ∃ n, r.scopes.size = n + 1 :=
    ⟨r.scopes.size - 1, by have := index_lt_of_scope? hσ; omega⟩
  refine ⟨sc, hσ, hp, ?_⟩
  unfold staticChain
  rw [hn, chain, hσ, Option.bind_some, (h.top σ sc hσ hp).1]
  cases n <;> rfl

/-- From the top of a document, links have the meaning they have everywhere. -/
theorem Synced.innerTarget?_of_document (h : r.Synced) {d : String} {σ : ScopeId}
    (hd : r.documentScope? d = some σ) (link : Link) : r.innerTarget? σ link = none := by
  obtain ⟨sc, hσ, hp, hchain⟩ := h.staticChain_of_document hd
  unfold innerTarget? findStatic
  rw [hchain]
  simp [hσ, hp]

/-- What a scope knows under a tag, the index knows too. -/
theorem Synced.findStatic_tag (h : r.Synced) (σ : ScopeId) {name : String}
    (ha : Path.isAbs name = true) {i : EntryId}
    (hi : r.findStatic σ (atAnchor Scope.anchors (.tag name)) = some i) :
    (r.address? (.tag name)).map Address.target = some (.entry i) := by
  obtain ⟨τ, -, hτ⟩ := List.exists_of_findSome?_eq_some hi
  obtain ⟨sc, hsc, hat⟩ := Option.bind_eq_some_iff.1 hτ
  unfold atAnchor at hat
  split at hat
  · cases hat
  · obtain ⟨d, haddr⟩ := h.tag τ sc name i hsc hat ha
    rw [haddr]
    rfl

/-- What the scope of a document knows under a relative anchor, the index knows for the document. -/
theorem Synced.atAnchor_top (h : r.Synced) {σ : ScopeId} {sc : Scope} (hσ : r.scope? σ = some sc)
    (hp : sc.parent = none) {path anchor : String} (hpath : path ≠ "")
    (hrel : Path.isAbs anchor = false) {i : EntryId}
    (hi : atAnchor Scope.anchors (.place path anchor) sc = some i) :
    (r.address? (.place path anchor)).map Address.target = some (.entry i) := by
  obtain ⟨-, -, hd⟩ := h.top σ sc hσ hp
  unfold atAnchor at hi
  split at hi
  · cases hi
  next hne =>
    unfold Scope.anchorOf at hi hne
    split at hi
    next hcond =>
      have hdoc : path = sc.document := by
        rcases hcond with htag | hempty | hdoc
        · cases htag
        · exact (hpath hempty).elim
        · exact hdoc
      rw [if_pos hcond] at hne
      change sc.anchors.lookup anchor = some i at hi
      rw [hdoc, h.anchor sc.document σ sc anchor hd hσ hne hrel, hi]
      rfl
    next hcond => exact (hne (if_neg hcond)).elim

/-- In an expansion, a link with the path of its document is read as one inside the document. -/
theorem atAnchor_inner {sc : Scope} (hp : sc.parent.isSome) {path : String} (anchor : String)
    (hpath : path ≠ "") : atAnchor Scope.anchors (.place path anchor) sc =
      if sc.parent.isSome ∧ (Link.place path anchor).isTag = false ∧
        (Link.place path anchor).path = sc.document ∧ (Link.place path anchor).anchor ≠ ""
      then sc.anchors.lookup (Link.place path anchor).anchor else none := by
  by_cases hdoc : path = sc.document <;> by_cases hanchor : anchor = "" <;>
    simp [atAnchor, Scope.anchorOf, Link.isTag, Link.path, Link.anchor, hp, hpath, hdoc, hanchor]

/-- Along the static parents, only the scope at the top agrees with the index by itself. The others
come before it. -/
theorem Synced.lookupTarget_place (h : r.Synced) (σ : ScopeId) {path anchor : String}
    (hpath : path ≠ "") (hrel : Path.isAbs anchor = false) :
    r.lookupTarget σ (.place path anchor) =
      ((r.innerTarget? σ (.place path anchor)).map Target.entry).or
        ((r.address? (.place path anchor)).map Address.target) := by
  unfold lookupTarget innerTarget? findStatic staticChain
  generalize r.scopes.size = fuel
  generalize some σ = start
  induction fuel generalizing start with
  | zero => cases start <;> rfl
  | succ fuel ih =>
    cases start with
    | none => rfl
    | some τ =>
      unfold chain
      rw [List.findSome?_cons, List.findSome?_cons]
      cases hτ : r.scope? τ with
      | none => exact ih none
      | some sc =>
        rw [Option.bind_some, Option.bind_some, Option.bind_some]
        cases hp : sc.parent with
        | none =>
          have hnil : r.chain Scope.origin fuel sc.origin = [] := by
            rw [(h.top τ sc hτ hp).1]
            cases fuel <;> rfl
          rw [hnil, if_neg (by simp)]
          cases hat : atAnchor Scope.anchors (.place path anchor) sc with
          | none => rfl
          | some i => exact (h.atAnchor_top hτ hp hpath hrel hat).symm
        | some p =>
          have hps : sc.parent.isSome := by rw [hp]; rfl
          rw [← hp, ← atAnchor_inner hps anchor hpath]
          cases atAnchor Scope.anchors (.place path anchor) sc with
          | none => exact ih sc.origin
          | some i => rfl

/-- What a link means, unless it stands for an anchor of the document at hand. -/
theorem Synced.lookupTarget_eq (h : r.Synced) (σ : ScopeId) {link : Link}
    (habs : Path.isAbs link.anchor = link.isTag) (hl : link.isTag = true ∨ link.path ≠ "") :
    r.lookupTarget σ link = ((r.innerTarget? σ link).map Target.entry).or
      ((r.address? link).map Address.target) := by
  cases link with
  | tag name =>
    rw [innerTarget?_tag]
    unfold lookupTarget
    cases hi : r.findStatic σ (atAnchor Scope.anchors (.tag name)) with
    | none => rfl
    | some i => exact (h.findStatic_tag σ habs hi).symm
  | place path anchor =>
    exact h.lookupTarget_place σ (hl.resolve_left Bool.false_ne_true) habs

/-- A qualified link means the same everywhere, unless an expansion in the document of the link
knows the anchor by itself. From the top of a document, and for tags, there is no such exception. -/
theorem Reached.lookupTarget_qualified (h : r.Reached) (σ : ScopeId) {asAnchor : Bool}
    {text : String} {link : Link} (hl : Link.read? asAnchor text = .ok link)
    (hq : link.isTag = true ∨ Path.isAbs link.path = true) :
    r.lookupTarget σ link = ((r.innerTarget? σ link).map Target.entry).or
        ((r.address? link).map Address.target) ∧
      (link.isTag = true ∨ (∃ d, r.documentScope? d = some σ) →
        r.lookupTarget σ link = (r.address? link).map Address.target) := by
  have heq := h.synced.lookupTarget_eq σ (Link.isAbs_anchor_of_read? hl)
    (hq.imp_right Path.ne_empty_of_isAbs)
  refine ⟨heq, fun hplain => ?_⟩
  have hnone : r.innerTarget? σ link = none := by
    rcases hplain with htag | ⟨d, hd⟩
    · cases link with
      | tag name => exact innerTarget?_tag σ name
      | place path anchor => cases htag
    · exact h.synced.innerTarget?_of_document hd link
  rw [heq, hnone]
  rfl

/-! ## A shorter name -/

/-- The document `/doc` with an expansion `demo-1`. -/
def expansionOfDoc : Registry :=
  ((({ rootType := "section" } : Registry).addDocument "/doc").2.newScope "demo-1" "/doc"
    (some ⟨0⟩) (some ⟨0⟩)).2

theorem expansionOfDoc_reached : expansionOfDoc.Reached := by
  have hdoc : Reached ((({ rootType := "section" } : Registry).addDocument "/doc").2) :=
    Reached.move ⟨"section", .refl⟩ (.document (by decide +kernel) rfl)
  have htop : (({ rootType := "section" } : Registry).addDocument "/doc").2.scope? ⟨0⟩ =
      some ⟨"", "", "/doc", none, none, [], [], [], [], [], [], []⟩ := rfl
  exact hdoc.move (.scope "demo-1" htop rfl)

/-- A section in the expansion, tagged `fig`. -/
def registerFig : Step EntryId :=
  registerEntry ⟨1⟩ { id := ⟨"section", [1]⟩, document := "/doc", location := ⟨"/doc", 3, 1⟩ }
    ["fig", "section-1"] false

/-- The section is registered. -/
theorem exists_registerFig {P : Registry → Prop} [DecidablePred P]
    (h : (match registerFig expansionOfDoc with | .ok _ r => decide (P r) | .error _ _ => false) =
      true) : ∃ r, r.Reached ∧ P r := by
  cases hr : registerFig expansionOfDoc with
  | ok id r =>
    refine ⟨r, expansionOfDoc_reached.move ?_, by simpa [hr] using h⟩
    have hinner : expansionOfDoc.scope? ⟨1⟩ =
        some ⟨"demo-1", "demo-1", "/doc", some ⟨0⟩, some ⟨0⟩, [], [], [], [], [], [], []⟩ := rfl
    exact .entry hinner rfl (by decide +kernel) hr
  | error e r => simp [hr] at h

/-- From inside the expansion, a link with the full name of the section leads where it leads
everywhere. -/
theorem lookupTarget_qualified_fig : ∃ r : Registry, r.Reached ∧
    Link.read? false "/doc#demo-1/fig" = .ok (.place "/doc" "demo-1/fig") ∧
    Path.isAbs (Link.place "/doc" "demo-1/fig").path = true ∧
    r.lookupTarget ⟨1⟩ (.place "/doc" "demo-1/fig") = some (.entry ⟨0⟩) := by
  obtain ⟨r, hr, hinner, haddress⟩ := exists_registerFig
    (P := fun r => r.innerTarget? ⟨1⟩ (.place "/doc" "demo-1/fig") = none ∧
      (r.address? (.place "/doc" "demo-1/fig")).map Address.target = some (.entry ⟨0⟩))
    (by decide +kernel)
  have hread : Link.read? false "/doc#demo-1/fig" = .ok (.place "/doc" "demo-1/fig") := by
    decide +kernel
  have habs : Path.isAbs (Link.place "/doc" "demo-1/fig").path = true := by decide +kernel
  refine ⟨r, hr, hread, habs, ?_⟩
  rw [(hr.lookupTarget_qualified ⟨1⟩ hread (.inr habs)).1, hinner, haddress]
  rfl

/-- From inside the expansion, `/doc#fig` leads to the section. The index has nothing under it. -/
theorem not_forall_lookupTarget : ¬∀ (r : Registry) (σ : ScopeId) (asAnchor : Bool) (text : String)
    (link : Link), r.Reached → (r.scope? σ).isSome → Link.read? asAnchor text = .ok link →
      (link.isTag = true ∨ Path.isAbs link.path = true) →
      r.lookupTarget σ link = (r.address? link).map Address.target := by
  intro h
  obtain ⟨r, hr, hscope, hlookup, haddress⟩ := exists_registerFig
    (P := fun r => (r.scope? ⟨1⟩).isSome ∧
      r.lookupTarget ⟨1⟩ (.place "/doc" "fig") = some (.entry ⟨0⟩) ∧
      r.address? (.place "/doc" "fig") = none) (by decide +kernel)
  have heq := h r ⟨1⟩ false "/doc#fig" (.place "/doc" "fig") hr hscope (by decide +kernel)
    (.inr (by decide +kernel))
  rw [hlookup, haddress] at heq
  cases heq

end Registry

end Folio
