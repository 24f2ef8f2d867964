import Folio.Proofs.Resolution.Proper
import Mathlib.Logic.Relation

/-!
# Registries of documents

`Registry.Move` is one operation on a registry that succeeds: a document is added, a scope is opened
below one that is there, something is registered in a scope. `Registry.Reached` are the registries
that come about in this way, with all documents under different absolute paths.

Whatever an operation does, scopes stay in their places (`Registry.Stays`). Most operations also
leave alone what labeled nodes are registered under (`Registry.Aside`). The one that does not is
`Registry.registerEntry`, and `Registry.registerEntry_entered` says all about it. It hands tags on
along the dynamic parents (`Registry.Spread`), and puts those that come out into the index of all
documents (`Registry.Published`).
-/

namespace Folio

/-- What stays of a scope when names are registered, but for the anchors of labeled nodes. -/
def Scope.bare (s : Scope) : Scope :=
  { s with ids := [], blocks := [], tags := [], values := [], counts := [], children := [] }

/-- What stays of a scope whatever is registered. -/
def Scope.place (s : Scope) : Scope := { s.bare with anchors := [] }

theorem Scope.anchors_eq_of_bare {s s' : Scope} (h : s'.bare = s.bare) :
    s'.anchors = s.anchors := by
  have heq := congrArg Scope.anchors h
  exact heq

theorem Scope.document_eq_of_place {s s' : Scope} (h : s'.place = s.place) :
    s'.document = s.document := by
  have heq := congrArg Scope.document h
  exact heq

theorem Scope.name_eq_of_place {s s' : Scope} (h : s'.place = s.place) : s'.name = s.name := by
  have heq := congrArg Scope.name h
  exact heq

theorem Scope.fullName_eq_of_place {s s' : Scope} (h : s'.place = s.place) :
    s'.fullName = s.fullName := by
  have heq := congrArg Scope.fullName h
  exact heq

theorem Scope.parent_eq_of_place {s s' : Scope} (h : s'.place = s.place) :
    s'.parent = s.parent := by
  have heq := congrArg Scope.parent h
  exact heq

/-- What is known of a labeled node under its anchors. -/
def Entry.bare (e : Entry) : Entry where
  id := e.id
  document := e.document
  location := {}
  anchors := e.anchors

theorem Entry.document_eq_of_bare {e e' : Entry} (h : e'.bare = e.bare) :
    e'.document = e.document := by
  have heq := congrArg Entry.document h
  exact heq

theorem Entry.anchors_eq_of_bare {e e' : Entry} (h : e'.bare = e.bare) :
    e'.anchors = e.anchors := by
  have heq := congrArg Entry.anchors h
  exact heq

namespace Registry

variable {r r' r'' : Registry}

/-! ## Operations -/

/-- An operation that succeeds. Scopes are opened in places that are there, nodes are registered in
scopes of their documents, and no tag is empty. What is found out about an entry later is neither
its id, nor its document, nor its anchors. -/
inductive Move (r : Registry) : Registry → Prop
  | document {document : String} (habs : Path.isAbs document = true)
    (hnew : r.documentScope? document = none) : Move r (r.addDocument document).2
  | scope (name : String) {parent origin : ScopeId} {outer : Scope}
    (hp : r.scope? parent = some outer) (ho : (r.scope? origin).isSome) :
    Move r (r.newScope name outer.document (some parent) (some origin)).2
  | name {σ : ScopeId} {name given : String} {extend : Bool} {r' : Registry}
    (h : r.nextName σ name extend = .ok (given, r')) : Move r r'
  | child {σ child : ScopeId} {name : String} {r' : Registry}
    (h : r.addChild σ name child = .ok r') : Move r r'
  | entry {σ : ScopeId} {sc : Scope} {e : Entry} {tags : List String} {explicit : Bool}
    {id : EntryId} {r' : Registry} (hσ : r.scope? σ = some sc) (hd : e.document = sc.document)
    (htags : ∀ tag ∈ tags, tag ≠ "") (h : registerEntry σ e tags explicit r = .ok id r') : Move r r'
  | tag {σ : ScopeId} {typ tag : String} {e : TagEntry} {explicit : Bool} {r' : Registry}
    (h : registerTag σ typ tag e explicit r = .ok ⟨⟩ r') : Move r r'
  | block {σ : ScopeId} {tag : String} {e : BlockEntry} {id : BlockId} {r' : Registry}
    (hs : (r.scope? e.scope).isSome) (h : registerBlock σ tag e r = .ok id r') : Move r r'
  | value (binding : Binding) : Move r (r.addValue binding).2
  | setValue (σ : ScopeId) (name : String) (value : ValueId) : Move r (r.setValue σ name value)
  | found (e : EntryId) {f : Entry → Entry} (hf : ∀ entry, (f entry).id = entry.id ∧
      (f entry).document = entry.document ∧ (f entry).anchors = entry.anchors) :
    Move r (r.modifyEntry e f)

/-- Some operations, one after the other. -/
abbrev Moves : Registry → Registry → Prop := Relation.ReflTransGen Move

/-- A registry that is empty at first, after some operations. -/
def Reached (r : Registry) : Prop := ∃ rootType, Moves { rootType } r

theorem Reached.moves (h : r.Reached) (hm : Moves r r') : r'.Reached :=
  h.imp fun _ h => h.trans hm

theorem Reached.move (h : r.Reached) (hm : Move r r') : r'.Reached := h.moves (.single hm)

/-! ## What operations leave alone -/

/-- Scopes and documents stay in their places. -/
structure Stays (r r' : Registry) : Prop where
  scope : ∀ σ sc, r.scope? σ = some sc → ∃ sc', r'.scope? σ = some sc' ∧ sc'.place = sc.place
  document : ∀ d σ, r.documentScope? d = some σ → r'.documentScope? d = some σ

theorem Stays.refl (r : Registry) : Stays r r := ⟨fun _ sc h => ⟨sc, h, rfl⟩, fun _ _ h => h⟩

theorem Stays.trans (h : Stays r r') (h' : Stays r' r'') : Stays r r'' where
  scope σ sc hσ := by
    obtain ⟨sc', hσ', hp⟩ := h.scope σ sc hσ
    obtain ⟨sc'', hσ'', hp'⟩ := h'.scope σ sc' hσ'
    exact ⟨sc'', hσ'', hp'.trans hp⟩
  document d σ hd := h'.document d σ (h.document d σ hd)

/-- Nothing changes for labeled nodes, and blocks that are new lie in scopes that are there. -/
structure Aside (r r' : Registry) : Prop where
  scope : ∀ σ, (r'.scope? σ).map Scope.bare = (r.scope? σ).map Scope.bare
  addresses : r'.index.addresses = r.index.addresses
  documents : r'.index.documents = r.index.documents
  block : ∀ b e, r'.block? b = some e → r.block? b = some e ∨ (r.scope? e.scope).isSome
  entry : ∀ i, (r'.entryAt? i).map Entry.bare = (r.entryAt? i).map Entry.bare

namespace Aside

theorem refl (r : Registry) : Aside r r :=
  ⟨fun _ => rfl, rfl, rfl, fun _ _ h => .inl h, fun _ => rfl⟩

theorem isSome_scope? (h : Aside r r') (σ : ScopeId) :
    (r'.scope? σ).isSome = (r.scope? σ).isSome := by
  simpa using congrArg Option.isSome (h.scope σ)

theorem scope?_eq_some (h : Aside r r') {σ : ScopeId} {sc' : Scope} (hσ : r'.scope? σ = some sc') :
    ∃ sc, r.scope? σ = some sc ∧ sc'.bare = sc.bare := by
  have heq := h.scope σ
  rw [hσ, Option.map_some] at heq
  obtain ⟨sc, hsc, hb⟩ := Option.map_eq_some_iff.1 heq.symm
  exact ⟨sc, hsc, hb.symm⟩

theorem symm_scope? (h : Aside r r') {σ : ScopeId} {sc : Scope} (hσ : r.scope? σ = some sc) :
    ∃ sc', r'.scope? σ = some sc' ∧ sc'.bare = sc.bare := by
  have heq := h.scope σ
  rw [hσ, Option.map_some] at heq
  exact Option.map_eq_some_iff.1 heq

theorem trans (h : Aside r r') (h' : Aside r' r'') : Aside r r'' where
  scope σ := (h'.scope σ).trans (h.scope σ)
  addresses := h'.addresses.trans h.addresses
  documents := h'.documents.trans h.documents
  block b e hb := (h'.block b e hb).elim (h.block b e) fun hs => .inr (h.isSome_scope? _ ▸ hs)
  entry i := (h'.entry i).trans (h.entry i)

theorem stays (h : Aside r r') : Stays r r' where
  scope σ sc hσ := by
    obtain ⟨sc', hσ', hb⟩ := h.symm_scope? hσ
    exact ⟨sc', hσ', by rw [Scope.place, hb, Scope.place]⟩
  document d σ hd := by rwa [documentScope?, h.documents]

theorem modifyScope (r : Registry) (σ : ScopeId) {f : Scope → Scope}
    (hf : ∀ sc, (f sc).bare = sc.bare) : Aside r (r.modifyScope σ f) where
  scope τ := by
    rw [scope?_modifyScope]
    split
    · rw [Option.map_map]
      exact congrArg (Option.map · (r.scope? τ)) (funext hf)
    · rfl
  addresses := rfl
  documents := rfl
  block _ _ h := .inl h
  entry _ := rfl

theorem modifyIndex (r : Registry) {index : GlobalIndex}
    (ha : index.addresses = r.index.addresses) (hd : index.documents = r.index.documents) :
    Aside r { r with index } where
  scope _ := rfl
  addresses := ha
  documents := hd
  block _ _ h := .inl h
  entry _ := rfl

/-- What is found out about labeled nodes does not matter. -/
theorem of_entries (hr : r' = { r with entries := r'.entries })
    (hsize : r'.entries.size = r.entries.size)
    (he : ∀ i e, r.entryAt? i = some e → ∃ e', r'.entryAt? i = some e' ∧ e'.bare = e.bare) :
    Aside r r' := by
  refine ⟨fun _ => by rw [hr, scope?, scope?], by rw [hr], by rw [hr], fun b e hb => .inl ?_,
    fun i => ?_⟩
  · rw [hr] at hb
    exact hb
  · cases hi : r.entryAt? i with
    | none =>
      have hnone : r'.entryAt? i = none := by
        rw [entryAt?, Array.getElem?_eq_none_iff] at hi ⊢
        omega
      rw [hnone]
    | some e =>
      obtain ⟨e', he', hb⟩ := he i e hi
      rw [he', Option.map_some, Option.map_some, hb]

theorem addValue (r : Registry) (binding : Binding) : Aside r (r.addValue binding).2 :=
  ⟨fun _ => rfl, rfl, rfl, fun _ _ h => .inl h, fun _ => rfl⟩

theorem setValue (r : Registry) (σ : ScopeId) (name : String) (value : ValueId) :
    Aside r (r.setValue σ name value) := by
  unfold Registry.setValue
  exact modifyScope r σ fun _ => rfl

theorem found (e : EntryId) {f : Entry → Entry} (hf : ∀ entry, (f entry).id = entry.id ∧
    (f entry).document = entry.document ∧ (f entry).anchors = entry.anchors) :
    Aside r (r.modifyEntry e f) := by
  have hbare : Entry.bare ∘ f = Entry.bare := funext fun entry => by
    obtain ⟨hi, hd, ha⟩ := hf entry
    rw [Function.comp_apply, Entry.bare, hi, hd, ha, Entry.bare]
  refine ⟨fun _ => rfl, rfl, rfl, fun _ _ h => .inl h, fun i => ?_⟩
  rw [entryAt?_modifyEntry]
  split
  · rw [Option.map_map, hbare]
  · rfl

theorem nextName {σ : ScopeId} {name n : String} {extend : Bool}
    (h : r.nextName σ name extend = .ok (n, r')) : Aside r r' := by
  unfold Registry.nextName at h
  dsimp only at h
  split at h <;> cases h
  exact modifyScope r σ fun _ => rfl

theorem addChild {σ child : ScopeId} {name : String} (h : r.addChild σ name child = .ok r') :
    Aside r r' := by
  unfold Registry.addChild at h
  split at h <;> cases h
  exact modifyScope r σ fun _ => rfl

end Aside

theorem registerTagUp_aside (typ : String) (e : TagEntry) (explicit : Bool)
    (scopes : List ScopeId) (document tag : String) (r : Registry) :
    After True (registerTagUp typ e explicit scopes document tag) r fun _ r' => Aside r r' := by
  induction scopes generalizing document tag r with
  | nil => exact .refl r
  | cons σ rest ih =>
    unfold registerTagUp
    rw [After.bind_iff, After.get_iff]
    split
    · exact ih document tag r
    · split
      · exact trivial
      · rw [After.bind_iff, After.set_iff]
        have hq : Aside r (r.modifyScope σ fun sc =>
            { sc with tags := ((typ, tag), e) :: sc.tags }) := .modifyScope r σ fun _ => rfl
        exact (ih _ _ _).mono fun _ _ h => hq.trans h

theorem registerTag_aside (σ : ScopeId) (typ tag : String) (e : TagEntry) (explicit : Bool)
    (r : Registry) : After True (registerTag σ typ tag e explicit) r fun _ r' => Aside r r' := by
  unfold registerTag
  rw [After.bind_iff, After.get_iff, After.bind_iff]
  refine (registerTagUp_aside typ e explicit (r.dynamicChain σ) "" tag r).mono ?_
  rintro ⟨document, tag⟩ r' h
  dsimp only
  rw [After.bind_iff, After.get_iff]
  split
  · exact trivial
  · exact h.trans (.modifyIndex r' rfl rfl)

theorem registerBlockUp_aside (tag : String) (location : Location) (id : BlockId)
    (scopes : List ScopeId) (r : Registry) :
    After True (registerBlockUp tag location id scopes) r fun _ r' => Aside r r' := by
  induction scopes generalizing r with
  | nil =>
    unfold registerBlockUp
    rw [After.bind_iff, After.get_iff]
    split
    · exact trivial
    · exact .modifyIndex r rfl rfl
  | cons σ rest ih =>
    unfold registerBlockUp
    rw [After.bind_iff, After.get_iff]
    dsimp only
    split
    · exact trivial
    · rw [After.bind_iff, After.set_iff]
      have hq : Aside r (r.modifyScope σ fun sc => { sc with blocks := (tag, id) :: sc.blocks }) :=
        .modifyScope r σ fun _ => rfl
      split
      · exact (ih _).mono fun _ _ h => hq.trans h
      · exact hq

theorem registerBlock_aside (σ : ScopeId) (tag : String) {e : BlockEntry} {r : Registry}
    (hs : (r.scope? e.scope).isSome) :
    After True (registerBlock σ tag e) r fun _ r' => Aside r r' := by
  unfold registerBlock
  rw [After.bind_iff, After.get_iff]
  dsimp only
  rw [After.bind_iff, After.set_iff, After.bind_iff]
  have hpush : Aside r { r with blocks := r.blocks.push e } := by
    refine ⟨fun _ => rfl, rfl, rfl, fun b e' hb => ?_, fun _ => rfl⟩
    change (r.blocks.push e)[b.index]? = some e' at hb
    rw [Array.getElem?_push] at hb
    split at hb
    · cases hb
      exact .inr hs
    · exact .inl hb
  exact (registerBlockUp_aside tag _ _ _ _).mono fun _ _ h => hpush.trans h

end Registry

end Folio
