import Folio.Proofs.Scope.Refusals

/-!
# Registries of any operations

`Registry.Attempt` is one operation on a registry, whether it succeeds or fails, and
`Registry.Tried` are the registries that come about by such operations. Less is known of them than
of those whose operations have all succeeded (`Registry.Reached`): a registration that was refused
leaves its marks, documents can be added twice, and scopes can be opened anywhere.

But a scope is always opened behind its dynamic parent (`Registry.Layered`). So dynamic chains end,
and come to no scope twice. In a registry of documents (`Registry.TriedDocuments`) they do not leave
the document either (`Registry.Branching`).

What an operation does to scopes and tags is said once, in `Registry.Attempt.cases`.
-/

namespace Folio

/-- The place of a scope and its tags. -/
def Scope.outline (sc : Scope) : Scope := { sc.place with tags := sc.tags }

namespace Registry

variable {r r' r'' : Registry} {σ τ : ScopeId}

/-- An operation that succeeds or fails. Scopes are opened below scopes that are there, and names
are registered in these. -/
inductive Attempt (r : Registry) : Registry → Prop
  | document (document : String) : Attempt r (r.addDocument document).2
  | scope (name document : String) {parent origin : Option ScopeId}
    (hp : ∀ p ∈ parent, (r.scope? p).isSome) (ho : ∀ o ∈ origin, (r.scope? o).isSome) :
    Attempt r (r.newScope name document parent origin).2
  | name {σ : ScopeId} {name given : String} {extend : Bool} {r' : Registry}
    (h : r.nextName σ name extend = .ok (given, r')) : Attempt r r'
  | child {σ child : ScopeId} {name : String} {r' : Registry}
    (h : r.addChild σ name child = .ok r') : Attempt r r'
  | entry {σ : ScopeId} {e : Entry} {tags : List String} {explicit : Bool} {r' : Registry}
    (hσ : (r.scope? σ).isSome) (h : Leaves (· = r') (registerEntry σ e tags explicit) r) :
    Attempt r r'
  | tag {σ : ScopeId} {typ tag : String} {e : TagEntry} {explicit : Bool} {r' : Registry}
    (hσ : (r.scope? σ).isSome) (h : Leaves (· = r') (registerTag σ typ tag e explicit) r) :
    Attempt r r'
  | block {σ : ScopeId} {tag : String} {e : BlockEntry} {r' : Registry}
    (hσ : (r.scope? σ).isSome) (h : Leaves (· = r') (registerBlock σ tag e) r) : Attempt r r'
  | value (binding : Binding) : Attempt r (r.addValue binding).2
  | setValue (σ : ScopeId) (name : String) (value : ValueId) : Attempt r (r.setValue σ name value)
  | found (e : EntryId) (f : Entry → Entry) : Attempt r (r.modifyEntry e f)

/-- A registry that is empty at first, after some operations. -/
def Tried (r : Registry) : Prop := ∃ rootType, Relation.ReflTransGen Attempt { rootType } r

theorem scope?_of_push {sc : Scope} (h : r'.scopes = r.scopes.push sc) (σ : ScopeId) :
    r'.scope? σ = if σ.index = r.scopes.size then some sc else r.scope? σ := by
  rw [scope?, h, Array.getElem?_push]
  rfl

/-! ## Chains of parents -/

/-- Dynamic parents come earlier. -/
def Layered (r : Registry) : Prop :=
  ∀ σ sc p, r.scope? σ = some sc → sc.parent = some p → p.index < σ.index

namespace Layered

/-- A chain goes down to the first scope. -/
theorem chain (h : r.Layered) (fuel : ℕ) (hσ : (r.scope? σ).isSome) :
    (∀ τ ∈ r.chain Scope.parent fuel (some σ), τ.index ≤ σ.index ∧ (r.scope? τ).isSome) ∧
      (r.chain Scope.parent fuel (some σ)).Nodup := by
  induction fuel generalizing σ with
  | zero => exact ⟨by simp [Registry.chain], List.nodup_nil⟩
  | succ fuel ih =>
    obtain ⟨sc, hsc⟩ := Option.isSome_iff_exists.1 hσ
    rw [Registry.chain, hsc, Option.bind_some]
    cases hp : sc.parent with
    | none =>
      have hnil : r.chain Scope.parent fuel none = [] := by cases fuel <;> rfl
      rw [hnil]
      exact ⟨by simp [hσ], List.nodup_singleton σ⟩
    | some p =>
      have hlt := h σ sc p hsc hp
      obtain ⟨hmem, hnodup⟩ := ih (isSome_scope?_iff.2 (hlt.trans (isSome_scope?_iff.1 hσ)))
      refine ⟨fun τ hτ => ?_, List.nodup_cons.2 ⟨fun hself => ?_, hnodup⟩⟩
      · rcases List.mem_cons.1 hτ with rfl | hτ
        · exact ⟨Nat.le_refl _, hσ⟩
        · exact ⟨(hmem τ hτ).1.trans hlt.le, (hmem τ hτ).2⟩
      · exact Nat.not_lt.2 (hmem σ hself).1 hlt

theorem nodup_dynamicChain (h : r.Layered) (hσ : (r.scope? σ).isSome) :
    (r.dynamicChain σ).Nodup := (h.chain _ hσ).2

theorem isSome_of_mem_dynamicChain (h : r.Layered) (hσ : (r.scope? σ).isSome)
    (hτ : τ ∈ r.dynamicChain σ) : (r.scope? τ).isSome := ((h.chain _ hσ).1 τ hτ).2

theorem of_alike (h : r.Layered) (halike : Alike Scope.place r r') : r'.Layered := by
  intro σ sc' p hσ hp
  have heq := halike σ
  rw [hσ, Option.map_some] at heq
  obtain ⟨sc, hsc, hplace⟩ := Option.map_eq_some_iff.1 heq.symm
  rw [Scope.parent_eq_of_place hplace.symm] at hp
  exact h σ sc p hsc hp

/-- A scope is opened behind those that are there. -/
theorem push (h : r.Layered) {sc : Scope} (hscopes : r'.scopes = r.scopes.push sc)
    (hp : ∀ p ∈ sc.parent, (r.scope? p).isSome) : r'.Layered := by
  intro σ sc' p hσ hparent
  rw [scope?_of_push hscopes] at hσ
  split at hσ
  next hlast =>
    cases hσ
    rw [hlast]
    exact isSome_scope?_iff.1 (hp p hparent)
  · exact h σ sc' p hσ hparent

end Layered

/-! ## What operations do -/

/-- The stops of a tag that is registered in a scope. -/
def tagRoute (r : Registry) (σ : ScopeId) (explicit : Bool) (tag : String) :
    List (Option ScopeId × String) :=
  r.tagStops explicit (r.dynamicChain σ) "" tag

/-- Whether a tag is accepted or refused, it is registered where it is free. -/
theorem Layered.registerTag_tagged {typ tag : String} {e : TagEntry} {explicit : Bool}
    (hr : r.Layered) (hσ : (r.scope? σ).isSome)
    (h : Leaves (· = r') (registerTag σ typ tag e explicit) r) :
    ∃ marks, marks <+: r.tagRoute σ explicit tag ∧ (∀ mark ∈ marks, r.tagAt? typ mark = none) ∧
      Tagged r r' typ e marks := by
  refine (registerTag_concludes (hr.nodup_dynamicChain hσ) typ tag e explicit).elim h ?_ ?_
  · exact fun _ h => ⟨_, List.prefix_rfl, h.free, h.tagged⟩
  · rintro err ⟨marks, stop, ⟨⟨rest, hsplit⟩, hfree, -⟩, htagged, -⟩
    exact ⟨marks, ⟨stop :: rest, hsplit.symm⟩, hfree, htagged⟩

/-- An operation opens a scope, or registers a tag, or leaves the tags and the places of scopes. -/
theorem Attempt.cases (h : Attempt r r') (hr : r.Layered) :
    (∃ sc, r'.scopes = r.scopes.push sc ∧ (∀ p ∈ sc.parent, (r.scope? p).isSome) ∧ sc.tags = [] ∧
      r'.index.tags = r.index.tags) ∨
    (∃ σ typ tag e explicit,
      (r.scope? σ).isSome ∧ Leaves (· = r') (registerTag σ typ tag e explicit) r) ∨
    Alike Scope.outline r r' ∧ r'.index.tags = r.index.tags := by
  cases h with
  | document document => exact .inl ⟨_, rfl, by simp, rfl, rfl⟩
  | scope name document hp _ => exact .inl ⟨_, rfl, hp, rfl, rfl⟩
  | name h =>
    unfold nextName at h
    dsimp only at h
    split at h <;> cases h
    exact .inr (.inr ⟨.modifyScope r _ fun _ => rfl, rfl⟩)
  | child h =>
    unfold addChild at h
    split at h <;> cases h
    exact .inr (.inr ⟨.modifyScope r _ fun _ => rfl, rfl⟩)
  | @entry σ e tags explicit _ hσ h =>
    refine .inr (.inr ((registerEntry_concludes (hr.nodup_dynamicChain hσ)
      (fun τ => hr.isSome_of_mem_dynamicChain hσ) e tags explicit).elim h ?_ ?_))
    · exact fun _ h => ⟨h.alike.map_eq fun _ => rfl, h.tags⟩
    · exact fun _ ⟨_, _, h, _⟩ => ⟨h.alike.map_eq fun _ => rfl, h.kept.tags⟩
  | @tag σ typ tag e explicit _ hσ h => exact .inr (.inl ⟨σ, typ, tag, e, explicit, hσ, h⟩)
  | @block σ tag e _ hσ h =>
    refine .inr (.inr ((registerBlock_concludes (hr.nodup_dynamicChain hσ)
      (fun τ => hr.isSome_of_mem_dynamicChain hσ) tag e).elim h ?_ ?_))
    · exact fun _ h => ⟨h.alike.map_eq fun _ => rfl, congrArg (·.index.tags) h.rest⟩
    · exact fun _ ⟨_, _, _, h⟩ => ⟨h.alike.map_eq fun _ => rfl, congrArg (·.index.tags) h.rest⟩
  | value binding => exact .inr (.inr ⟨.refl r, rfl⟩)
  | setValue σ name value => exact .inr (.inr ⟨.modifyScope r σ fun _ => rfl, rfl⟩)
  | found e f => exact .inr (.inr ⟨.of_scopes rfl, rfl⟩)

/-- Scopes stay in their places, and at most one is opened. -/
theorem Attempt.alike_or_push (h : Attempt r r') (hr : r.Layered) : Alike Scope.place r r' ∨
    ∃ sc, r'.scopes = r.scopes.push sc ∧ ∀ p ∈ sc.parent, (r.scope? p).isSome := by
  rcases h.cases hr with ⟨sc, hscopes, hp, -⟩ | ⟨σ, typ, tag, e, explicit, hσ, hleaves⟩ | ⟨h, -⟩
  · exact .inr ⟨sc, hscopes, hp⟩
  · obtain ⟨marks, -, -, htagged⟩ := hr.registerTag_tagged hσ hleaves
    exact .inl (htagged.alike.map_eq fun _ => rfl)
  · exact .inl (h.map_eq fun _ => rfl)

theorem Attempt.layered (h : Attempt r r') (hr : r.Layered) : r'.Layered := by
  rcases h.alike_or_push hr with halike | ⟨sc, hscopes, hp⟩
  · exact hr.of_alike halike
  · exact hr.push hscopes hp

theorem layered_empty (rootType : String) : Layered { rootType } := by
  intro σ sc p hσ _
  simp [scope?] at hσ

theorem Tried.layered (h : r.Tried) : r.Layered := by
  obtain ⟨rootType, h⟩ := h
  induction h with
  | refl => exact layered_empty rootType
  | tail _ h ih => exact h.layered ih

/-! ## Registries of documents -/

/-- An operation on a registry of documents that succeeds or fails: documents are added under new
absolute paths, and scopes are opened in the documents of their parents. -/
inductive DocumentAttempt (r : Registry) : Registry → Prop
  | document {document : String} (habs : Path.isAbs document = true)
    (hnew : r.documentScope? document = none) : DocumentAttempt r (r.addDocument document).2
  | scope (name : String) {parent origin : ScopeId} {outer : Scope}
    (hp : r.scope? parent = some outer) (ho : (r.scope? origin).isSome) :
    DocumentAttempt r (r.newScope name outer.document (some parent) (some origin)).2
  | other {r' : Registry} (h : Attempt r r') (hsize : r'.scopes.size = r.scopes.size) :
    DocumentAttempt r r'

/-- Some operations, one after the other. -/
abbrev DocumentAttempts : Registry → Registry → Prop := Relation.ReflTransGen DocumentAttempt

/-- A registry that is empty at first, after some operations on documents. -/
def TriedDocuments (r : Registry) : Prop := ∃ rootType, DocumentAttempts { rootType } r

theorem DocumentAttempt.attempt (h : DocumentAttempt r r') : Attempt r r' := by
  cases h with
  | document _ _ => exact .document _
  | scope name hp ho =>
    refine .scope name _ (fun p hmem => ?_) fun o hmem => ?_
    · cases hmem
      rw [hp]
      rfl
    · cases hmem
      exact ho
  | other h _ => exact h

/-- Dynamic parents come earlier, in the same document. Documents have absolute paths. -/
structure Branching (r : Registry) : Prop where
  layered : r.Layered
  parent : ∀ σ sc p outer, r.scope? σ = some sc → sc.parent = some p → r.scope? p = some outer →
    outer.document = sc.document
  isAbs : ∀ σ sc, r.scope? σ = some sc → Path.isAbs sc.document = true

namespace Branching

theorem of_alike (h : r.Branching) (halike : Alike Scope.place r r') : r'.Branching := by
  have hback : ∀ {σ sc'}, r'.scope? σ = some sc' →
      ∃ sc, r.scope? σ = some sc ∧ sc.place = sc'.place := fun {σ sc'} hσ => by
    have heq := halike σ
    rw [hσ, Option.map_some] at heq
    exact Option.map_eq_some_iff.1 heq.symm
  refine ⟨h.layered.of_alike halike, fun σ sc' p outer' hσ hp hout => ?_, fun σ sc' hσ => ?_⟩
  · obtain ⟨sc, hsc, hplace⟩ := hback hσ
    obtain ⟨outer, hsco, hplaceo⟩ := hback hout
    rw [← Scope.parent_eq_of_place hplace] at hp
    rw [← Scope.document_eq_of_place hplace, ← Scope.document_eq_of_place hplaceo]
    exact h.parent σ sc p outer hsc hp hsco
  · obtain ⟨sc, hsc, hplace⟩ := hback hσ
    rw [← Scope.document_eq_of_place hplace]
    exact h.isAbs σ sc hsc

theorem push (h : r.Branching) {sc : Scope} (hscopes : r'.scopes = r.scopes.push sc)
    (hp : ∀ p ∈ sc.parent, ∃ outer, r.scope? p = some outer ∧ outer.document = sc.document)
    (habs : Path.isAbs sc.document = true) : r'.Branching := by
  have hlayered : r'.Layered := h.layered.push hscopes fun p hmem => by
    obtain ⟨outer, hout, -⟩ := hp p hmem
    rw [hout]
    rfl
  have hcases : ∀ {σ sc'}, r'.scope? σ = some sc' → sc' = sc ∨ r.scope? σ = some sc' := by
    intro σ sc' hσ
    rw [scope?_of_push hscopes] at hσ
    split at hσ
    · cases hσ
      exact .inl rfl
    · exact .inr hσ
  have hold : ∀ {p outer}, p.index < r.scopes.size → r'.scope? p = some outer →
      r.scope? p = some outer := by
    intro p outer hlt hout
    rwa [scope?_of_push hscopes, if_neg hlt.ne] at hout
  refine ⟨hlayered, fun σ sc' p outer hσ hparent hout => ?_, fun σ sc' hσ => ?_⟩
  · rcases hcases hσ with rfl | hσ'
    · obtain ⟨outer', hout', hdoc⟩ := hp p hparent
      have hlt := isSome_scope?_iff.1 (Option.isSome_iff_exists.2 ⟨outer', hout'⟩)
      cases (hold hlt hout).symm.trans hout'
      exact hdoc
    · have hlt := isSome_scope?_iff.1 (Option.isSome_iff_exists.2 ⟨sc', hσ'⟩)
      exact h.parent σ sc' p outer hσ' hparent
        (hold ((h.layered σ sc' p hσ' hparent).trans hlt) hout)
  · rcases hcases hσ with rfl | hσ'
    · exact habs
    · exact h.isAbs σ sc' hσ'

/-- The dynamic parents of a scope lie in its document. -/
theorem document_of_mem_dynamicChain (h : r.Branching) {sc outer : Scope}
    (hσ : r.scope? σ = some sc) (hmem : τ ∈ r.dynamicChain σ) (hτ : r.scope? τ = some outer) :
    outer.document = sc.document := by
  unfold dynamicChain at hmem
  generalize r.scopes.size = fuel at hmem
  induction fuel generalizing σ sc with
  | zero => simp [chain] at hmem
  | succ fuel ih =>
    rw [chain, hσ, Option.bind_some] at hmem
    rcases List.mem_cons.1 hmem with rfl | hmem
    · cases hσ.symm.trans hτ
      rfl
    · cases hp : sc.parent with
      | none =>
        rw [hp] at hmem
        cases fuel <;> cases hmem
      | some p =>
        rw [hp] at hmem
        have hlt := h.layered σ sc p hσ hp
        have hsome : (r.scope? p).isSome := isSome_scope?_iff.2
          (hlt.trans (isSome_scope?_iff.1 (Option.isSome_iff_exists.2 ⟨sc, hσ⟩)))
        obtain ⟨mid, hmid⟩ := Option.isSome_iff_exists.1 hsome
        exact (ih hmid hmem).trans (h.parent σ sc p mid hσ hp hmid)

end Branching

theorem DocumentAttempt.alike (h : DocumentAttempt r r') (hr : r.Layered)
    (hsize : r'.scopes.size = r.scopes.size) : Alike Scope.place r r' := by
  rcases h.attempt.alike_or_push hr with halike | ⟨sc, hscopes, -⟩
  · exact halike
  · rw [hscopes, Array.size_push] at hsize
    omega

theorem DocumentAttempt.branching (h : DocumentAttempt r r') (hr : r.Branching) :
    r'.Branching := by
  cases h with
  | document habs hnew => exact hr.push rfl (by simp) habs
  | @scope name parent origin outer hp ho =>
    refine hr.push rfl (fun p hmem => ?_) (hr.isAbs parent outer hp)
    cases hmem
    exact ⟨outer, hp, rfl⟩
  | other h hsize => exact hr.of_alike ((DocumentAttempt.other h hsize).alike hr.layered hsize)

theorem DocumentAttempts.branching (h : DocumentAttempts r r') (hr : r.Branching) :
    r'.Branching := by
  induction h with
  | refl => exact hr
  | tail _ h ih => exact h.branching ih

theorem TriedDocuments.branching (h : r.TriedDocuments) : r.Branching := by
  obtain ⟨rootType, h⟩ := h
  refine DocumentAttempts.branching h ⟨layered_empty rootType, ?_, ?_⟩
  · exact fun σ sc p outer hσ => by simp [scope?] at hσ
  · exact fun σ sc hσ => by simp [scope?] at hσ

/-- Scopes stay in their places. -/
theorem DocumentAttempts.place (h : DocumentAttempts r r') (hr : r.Branching) {sc : Scope}
    (hσ : r.scope? σ = some sc) : ∃ sc', r'.scope? σ = some sc' ∧ sc'.place = sc.place := by
  induction h with
  | refl => exact ⟨sc, hσ, rfl⟩
  | tail hsome h ih =>
    obtain ⟨sc', hσ', hplace⟩ := ih
    have hmid := DocumentAttempts.branching hsome hr
    rcases h.attempt.alike_or_push hmid.layered with halike | ⟨new, hscopes, -⟩
    · have heq := halike σ
      rw [hσ', Option.map_some] at heq
      obtain ⟨sc'', hσ'', hplace'⟩ := Option.map_eq_some_iff.1 heq
      exact ⟨sc'', hσ'', hplace'.trans hplace⟩
    · refine ⟨sc', ?_, hplace⟩
      have hlt := isSome_scope?_iff.1 (Option.isSome_iff_exists.2 ⟨sc', hσ'⟩)
      rwa [scope?_of_push hscopes, if_neg hlt.ne]

end Registry

end Folio
