import Folio.Proofs.Scope.Moves

/-!
# Values that scopes know

A parameter of a block is known in the scope of the expansion, and in those of the blocks that are
defined in it and expanded later. Registering nodes and tags adds nothing to the values and the
blocks that the scopes know (`Registry.Marks`), registering blocks nothing to the values
(`Registry.Upholds`), and opening scopes leaves those that are there alone (`Registry.Retains`). So a
name stands for the same value from then on (`Retains.lookupValue`).

A block that is defined in an expansion can be known in other documents, by an absolute tag, and
values with it. In a *domestic* registry (`Registry.Domestic`) it is not expanded there: a scope and
the expansions among its static parents lie in one document (`Domestic.document_eq`).
-/

namespace Folio

namespace Scope

variable {sc sc' : Scope}

theorem origin_eq_of_place (h : sc'.place = sc.place) : sc'.origin = sc.origin := by
  have heq := congrArg origin h
  exact heq

/-- A scope without the names of nodes and tags. Its blocks and its values are left. -/
def unnamed (sc : Scope) : Scope :=
  { sc with ids := [], anchors := [], tags := [], counts := [], children := [] }

theorem place_eq_of_unnamed (h : sc'.unnamed = sc.unnamed) : sc'.place = sc.place := by
  have heq := congrArg place h
  exact heq

theorem values_eq_of_unnamed (h : sc'.unnamed = sc.unnamed) : sc'.values = sc.values := by
  have heq := congrArg values h
  exact heq

theorem blocks_eq_of_unnamed (h : sc'.unnamed = sc.unnamed) : sc'.blocks = sc.blocks := by
  have heq := congrArg blocks h
  exact heq

/-- A scope without a dynamic parent has no static one either, and knows no values. -/
def Rooted (sc : Scope) : Prop := sc.parent = none → sc.origin = none ∧ sc.values = []

theorem Rooted.of_place (h : sc.Rooted) (hp : sc'.place = sc.place)
    (hv : sc'.values = sc.values) : sc'.Rooted := by
  intro hnone
  rw [parent_eq_of_place hp] at hnone
  rw [origin_eq_of_place hp, hv]
  exact h hnone

end Scope

namespace Registry

variable {r r' r'' : Registry}

/-- Blocks that are defined in an expansion are expanded in the document of that only. -/
def Domestic (r : Registry) : Prop :=
  ∀ σ τ sc outer, r.scope? σ = some sc → sc.origin = some τ → r.scope? τ = some outer →
    outer.parent.isSome → sc.document = outer.document

theorem chain_none (r : Registry) (up : Scope → Option ScopeId) (n : Nat) :
    r.chain up n none = [] := by
  cases n <;> rfl

/-- The static parents of a scope that are scopes of expansions lie in its document. -/
theorem Domestic.document_eq (hd : r.Domestic) (hr : ∀ σ sc, r.scope? σ = some sc → sc.Rooted)
    {σ τ : ScopeId} {sc outer : Scope} (hσ : r.scope? σ = some sc) (hmem : τ ∈ r.staticChain σ)
    (hτ : r.scope? τ = some outer) (hp : outer.parent.isSome) :
    sc.document = outer.document ∧ sc.parent.isSome := by
  unfold staticChain at hmem
  generalize r.scopes.size = fuel at hmem
  induction fuel generalizing σ sc with
  | zero => cases hmem
  | succ fuel ih =>
    unfold chain at hmem
    rw [hσ, Option.bind_some] at hmem
    rcases List.mem_cons.1 hmem with rfl | hmem
    · cases hσ.symm.trans hτ
      exact ⟨rfl, hp⟩
    · cases ho : sc.origin with
      | none =>
        rw [ho, chain_none] at hmem
        cases hmem
      | some o =>
        rw [ho] at hmem
        cases hmid : r.scope? o with
        | none =>
          -- the chain ends here, and its last scope is not there
          cases fuel with
          | zero => cases hmem
          | succ fuel =>
            unfold chain at hmem
            rw [hmid, Option.bind_none, chain_none, List.mem_singleton] at hmem
            cases hmid.symm.trans (hmem ▸ hτ)
        | some mid =>
          obtain ⟨hdoc, hinner⟩ := ih hmid hmem
          refine ⟨(hd σ o sc mid hσ ho hmid hinner).trans hdoc, ?_⟩
          cases hpar : sc.parent with
          | some p => rfl
          | none => cases ho.symm.trans (hr σ sc hσ hpar).1

/-- A value is found in a static parent that knows it. -/
theorem exists_of_lookupValue {σ : ScopeId} {name : String} {v : ValueId}
    (h : r.lookupValue σ name = some v) : ∃ τ sc, τ ∈ r.staticChain σ ∧ r.scope? τ = some sc ∧
      sc.values.lookup name = some v := by
  obtain ⟨τ, hτ, hv⟩ := List.exists_of_findSome?_eq_some h
  obtain ⟨sc, hsc, hv⟩ := Option.bind_eq_some_iff.1 hv
  exact ⟨τ, sc, hτ, hsc, hv⟩

/-! ## Values that stay -/

/-- Scopes that are there keep their places and the values that they know. -/
structure Retains (r r' : Registry) : Prop where
  scope : ∀ σ sc, r.scope? σ = some sc → ∃ sc', r'.scope? σ = some sc' ∧ sc'.place = sc.place ∧
    sc'.values = sc.values
  value : ∀ v binding, r.value? v = some binding → r'.value? v = some binding

namespace Retains

theorem refl (r : Registry) : Retains r r := ⟨fun _ sc h => ⟨sc, h, rfl, rfl⟩, fun _ _ h => h⟩

theorem trans (h : Retains r r') (h' : Retains r' r'') : Retains r r'' where
  scope σ sc hσ := by
    obtain ⟨sc', hσ', hp, hv⟩ := h.scope σ sc hσ
    obtain ⟨sc'', hσ'', hp', hv'⟩ := h'.scope σ sc' hσ'
    exact ⟨sc'', hσ'', hp'.trans hp, hv'.trans hv⟩
  value v binding hv := h'.value v binding (h.value v binding hv)

theorem size_le (h : Retains r r') : r.scopes.size ≤ r'.scopes.size := by
  refine Nat.le_of_not_lt fun hlt => ?_
  have hlast : r.scope? ⟨r'.scopes.size⟩ = some r.scopes[r'.scopes.size] :=
    Array.getElem?_eq_getElem hlt
  obtain ⟨sc', hsc', -⟩ := h.scope _ _ hlast
  exact Nat.lt_irrefl _ (Array.getElem?_eq_some_iff.1 hsc').1

/-- Scopes that are domestic were domestic before. -/
theorem domestic (h : Retains r r') (hd : r'.Domestic) : r.Domestic := by
  intro σ τ sc outer hσ ho hτ hp
  obtain ⟨sc', hσ', hplace, -⟩ := h.scope σ sc hσ
  obtain ⟨outer', hτ', hplace', -⟩ := h.scope τ outer hτ
  rw [← Scope.origin_eq_of_place hplace] at ho
  rw [← Scope.parent_eq_of_place hplace'] at hp
  have heq := hd σ τ sc' outer' hσ' ho hτ' hp
  rwa [Scope.document_eq_of_place hplace, Scope.document_eq_of_place hplace'] at heq

/-- What is found on a static chain is found at the same place later. -/
theorem findSome?_chain (h : Retains r r') {name : String} {v : ValueId} {n m : Nat} (hle : n ≤ m)
    {o : Option ScopeId} (hv : (r.chain Scope.origin n o).findSome?
      (fun σ => (r.scope? σ).bind (·.values.lookup name)) = some v) :
    (r'.chain Scope.origin m o).findSome?
      (fun σ => (r'.scope? σ).bind (·.values.lookup name)) = some v := by
  induction n generalizing m o with
  | zero => cases o <;> cases hv
  | succ n ih =>
    cases o with
    | none => cases hv
    | some σ =>
      obtain ⟨m, rfl⟩ := Nat.exists_eq_add_of_le' hle
      rw [← Nat.add_assoc]
      unfold chain at hv ⊢
      cases hσ : r.scope? σ with
      | none =>
        rw [List.findSome?_cons, hσ, Option.bind_none, Option.bind_none, chain_none] at hv
        cases hv
      | some sc =>
        obtain ⟨sc', hσ', hplace, hvalues⟩ := h.scope σ sc hσ
        rw [List.findSome?_cons, hσ, Option.bind_some, Option.bind_some] at hv
        rw [List.findSome?_cons, hσ', Option.bind_some, Option.bind_some, hvalues,
          Scope.origin_eq_of_place hplace]
        cases hl : sc.values.lookup name with
        | some w =>
          rw [hl] at hv
          exact hv
        | none =>
          rw [hl] at hv
          exact ih (Nat.le_add_left n m) hv

/-- A name stands for the same value from then on. -/
theorem lookupValue (h : Retains r r') {σ : ScopeId} {name : String} {v : ValueId}
    (hv : r.lookupValue σ name = some v) : r'.lookupValue σ name = some v :=
  h.findSome?_chain h.size_le hv

theorem newScope (r : Registry) (name document : String) (parent origin : Option ScopeId) :
    Retains r (r.newScope name document parent origin).2 where
  scope σ sc hσ := by
    refine ⟨sc, ?_, rfl, rfl⟩
    have hlt : σ.index < r.scopes.size := (Array.getElem?_eq_some_iff.1 hσ).1
    change (r.scopes.push _)[σ.index]? = _
    rw [Array.getElem?_push, if_neg (Nat.ne_of_lt hlt)]
    exact hσ
  value _ _ h := h

end Retains

/-- A scope that was just opened knows no values. -/
theorem exists_scope?_newScope (r : Registry) (name document : String)
    (parent origin : Option ScopeId) : ∃ sc,
      (r.newScope name document parent origin).2.scope? ⟨r.scopes.size⟩ = some sc ∧
      sc.parent = parent ∧ sc.origin = origin ∧ sc.document = document ∧ sc.values = [] :=
  ⟨_, Array.getElem?_push_size, rfl, rfl, rfl, rfl⟩

/-! ## Registering names -/

/-- Besides, no scope is new. -/
structure Upholds (r r' : Registry) : Prop extends Retains r r' where
  old : ∀ σ sc', r'.scope? σ = some sc' → ∃ sc, r.scope? σ = some sc

namespace Upholds

theorem refl (r : Registry) : Upholds r r := ⟨.refl r, fun _ sc h => ⟨sc, h⟩⟩

theorem trans (h : Upholds r r') (h' : Upholds r' r'') : Upholds r r'' where
  toRetains := h.toRetains.trans h'.toRetains
  old σ sc'' hσ := by
    obtain ⟨sc', hσ'⟩ := h'.old σ sc'' hσ
    exact h.old σ sc' hσ'

/-- Neither the scopes nor the values change. -/
theorem of_eq (hs : r'.scopes = r.scopes) (hv : r'.values = r.values) : Upholds r r' where
  scope σ sc hσ := ⟨sc, by rwa [scope?, hs], rfl, rfl⟩
  value v binding h := by rwa [value?, hv]
  old σ sc hσ := ⟨sc, by rwa [scope?, ← hs]⟩

end Upholds

/-- Scopes keep their places, blocks and values, and all documents know the blocks that they
knew. -/
structure Marks (r r' : Registry) : Prop where
  scope : ∀ σ, (r'.scope? σ).map Scope.unnamed = (r.scope? σ).map Scope.unnamed
  value : ∀ v binding, r.value? v = some binding → r'.value? v = some binding
  blocks : r'.blocks = r.blocks
  index : r'.index.blocks = r.index.blocks
  documents : r'.index.documents = r.index.documents

namespace Marks

theorem refl (r : Registry) : Marks r r := ⟨fun _ => rfl, fun _ _ h => h, rfl, rfl, rfl⟩

theorem trans (h : Marks r r') (h' : Marks r' r'') : Marks r r'' where
  scope σ := (h'.scope σ).trans (h.scope σ)
  value v binding hv := h'.value v binding (h.value v binding hv)
  blocks := h'.blocks.trans h.blocks
  index := h'.index.trans h.index
  documents := h'.documents.trans h.documents

theorem scope?_eq_some (h : Marks r r') {σ : ScopeId} {sc' : Scope} (hσ : r'.scope? σ = some sc') :
    ∃ sc, r.scope? σ = some sc ∧ sc'.unnamed = sc.unnamed := by
  have heq := h.scope σ
  rw [hσ, Option.map_some] at heq
  obtain ⟨sc, hsc, hu⟩ := Option.map_eq_some_iff.1 heq.symm
  exact ⟨sc, hsc, hu.symm⟩

theorem symm_scope? (h : Marks r r') {σ : ScopeId} {sc : Scope} (hσ : r.scope? σ = some sc) :
    ∃ sc', r'.scope? σ = some sc' ∧ sc'.unnamed = sc.unnamed := by
  have heq := h.scope σ
  rw [hσ, Option.map_some] at heq
  exact Option.map_eq_some_iff.1 heq

theorem upholds (h : Marks r r') : Upholds r r' where
  scope σ sc hσ := by
    obtain ⟨sc', hσ', hu⟩ := h.symm_scope? hσ
    exact ⟨sc', hσ', Scope.place_eq_of_unnamed hu, Scope.values_eq_of_unnamed hu⟩
  value := h.value
  old σ sc' hσ := by
    obtain ⟨sc, hsc, -⟩ := h.scope?_eq_some hσ
    exact ⟨sc, hsc⟩

theorem modifyScope (r : Registry) (σ : ScopeId) {f : Scope → Scope}
    (hf : ∀ sc, (f sc).unnamed = sc.unnamed) : Marks r (r.modifyScope σ f) where
  scope τ := by
    rw [scope?_modifyScope]
    split
    · rw [Option.map_map]
      exact congrArg (Option.map · (r.scope? τ)) (funext hf)
    · rfl
  value _ _ h := h
  blocks := rfl
  index := rfl
  documents := rfl

theorem addValue (r : Registry) (binding : Binding) : Marks r (r.addValue binding).2 where
  scope _ := rfl
  value v b hv := by
    have hlt : v.index < r.values.size := (Array.getElem?_eq_some_iff.1 hv).1
    change (r.values.push binding)[v.index]? = _
    rw [Array.getElem?_push, if_neg (Nat.ne_of_lt hlt)]
    exact hv
  blocks := rfl
  index := rfl
  documents := rfl

theorem nextName {σ : ScopeId} {name given : String} {extend : Bool}
    (h : r.nextName σ name extend = .ok (given, r')) : Marks r r' := by
  unfold Registry.nextName at h
  dsimp only at h
  split at h <;> cases h
  exact modifyScope r σ fun _ => rfl

theorem addChild {σ child : ScopeId} {name : String} (h : r.addChild σ name child = .ok r') :
    Marks r r' := by
  unfold Registry.addChild at h
  split at h <;> cases h
  exact modifyScope r σ fun _ => rfl

end Marks

theorem Retains.addDocument (r : Registry) (document : String) :
    Retains r (r.addDocument document).2 where
  scope := (newScope r "" document none none).scope
  value := (newScope r "" document none none).value

/-- The scope of a document has no parents and knows no values. -/
theorem addDocument_cases {document : String} {σ : ScopeId} {sc : Scope}
    (h : (r.addDocument document).2.scope? σ = some sc) :
    r.scope? σ = some sc ∨ sc.parent = none ∧ sc.origin = none ∧ sc.values = [] := by
  obtain ⟨σ⟩ := σ
  simp only [scope?, Registry.addDocument, Registry.newScope, Array.getElem?_push] at h
  split at h
  · cases h
    exact .inr ⟨rfl, rfl, rfl⟩
  · exact .inl h

theorem registerIn_marks (σ : ScopeId) (id : EntryId) (e : Entry) (tags : List String)
    (r : Registry) : After True (registerIn σ id e tags) r fun _ r' => Marks r r' := by
  unfold registerIn
  rw [After.bind_iff, After.get_iff]
  cases r.scope? σ with
  | none => exact .refl r
  | some sc =>
    dsimp only
    split
    · exact trivial
    · split
      · exact trivial
      · exact .modifyScope r σ fun _ => rfl

theorem registerUp_marks (id : EntryId) (e : Entry) (explicit : Bool) (scopes : List ScopeId)
    (tags : List String) (r : Registry) :
    After True (registerUp id e explicit scopes tags) r fun _ r' => Marks r r' := by
  induction scopes generalizing tags r with
  | nil => exact .refl r
  | cons σ rest ih =>
    unfold registerUp
    rw [After.bind_iff]
    refine (registerIn_marks σ id e tags r).mono fun _ r₁ h₁ => ?_
    rw [After.bind_iff, After.get_iff]
    exact (ih _ r₁).mono fun _ _ h => h₁.trans h

theorem registerAddress_marks (id : EntryId) (e : Entry) (tag : String) (r : Registry) :
    After True (registerAddress id e tag) r fun _ r' => Marks r r' := by
  unfold registerAddress
  rw [After.bind_iff, After.get_iff]
  dsimp only
  split
  · exact trivial
  · exact ⟨fun _ => rfl, fun _ _ h => h, rfl, rfl, rfl⟩

theorem registerEntry_marks (σ : ScopeId) (e : Entry) (tags : List String) (explicit : Bool)
    (r : Registry) : After True (registerEntry σ e tags explicit) r fun _ r' => Marks r r' := by
  unfold registerEntry
  rw [After.bind_iff, After.get_iff]
  dsimp only
  rw [After.bind_iff, After.set_iff, After.bind_iff]
  have h₀ : Marks r { r with entries := r.entries.push e } :=
    ⟨fun _ => rfl, fun _ _ h => h, rfl, rfl, rfl⟩
  refine (registerUp_marks _ e explicit _ tags _).mono fun tags' r₁ h₁ => ?_
  rw [After.bind_iff]
  refine (After.forM (I := fun r' => Marks r r') (fun tag _ r' h' => ?_) (h₀.trans h₁)).mono
    fun _ r₂ h₂ => ?_
  · exact (registerAddress_marks _ e tag r').mono fun _ _ h => h'.trans h
  · rw [After.bind_iff, After.modify_iff, After.bind_iff, After.modify_iff, After.pure_iff]
    refine h₂.trans ?_
    split <;> exact ⟨fun _ => rfl, fun _ _ h => h, rfl, rfl, rfl⟩

theorem registerTagUp_marks (typ : String) (e : TagEntry) (explicit : Bool)
    (scopes : List ScopeId) (document tag : String) (r : Registry) :
    After True (registerTagUp typ e explicit scopes document tag) r fun _ r' => Marks r r' := by
  induction scopes generalizing document tag r with
  | nil => exact .refl r
  | cons σ rest ih =>
    unfold registerTagUp
    rw [After.bind_iff, After.get_iff]
    split
    · exact ih document tag r
    · split
      · exact trivial
      · rw [After.bind_iff, After.set_iff]
        have h : Marks r (r.modifyScope σ fun sc =>
            { sc with tags := ((typ, tag), e) :: sc.tags }) := .modifyScope r σ fun _ => rfl
        exact (ih _ _ _).mono fun _ _ h' => h.trans h'

theorem registerTag_marks (σ : ScopeId) (typ tag : String) (e : TagEntry) (explicit : Bool)
    (r : Registry) :
    After True (registerTag σ typ tag e explicit) r fun _ r' => Marks r r' := by
  unfold registerTag
  rw [After.bind_iff, After.get_iff, After.bind_iff]
  refine (registerTagUp_marks typ e explicit (r.dynamicChain σ) "" tag r).mono ?_
  rintro ⟨document, tag⟩ r' h
  dsimp only
  rw [After.bind_iff, After.get_iff]
  split
  · exact trivial
  · exact h.trans ⟨fun _ => rfl, fun _ _ h => h, rfl, rfl, rfl⟩

/-- A block gets known in a scope. -/
theorem Upholds.modifyBlocks (r : Registry) (σ : ScopeId) (tag : String) (id : BlockId) :
    Upholds r (r.modifyScope σ fun sc => { sc with blocks := (tag, id) :: sc.blocks }) where
  scope τ sc hτ := by
    rw [scope?_modifyScope, hτ]
    split
    · exact ⟨_, rfl, rfl, rfl⟩
    · exact ⟨sc, rfl, rfl, rfl⟩
  value _ _ h := h
  old τ sc' hτ := by
    rw [scope?_modifyScope] at hτ
    split at hτ
    · obtain ⟨sc, hsc, -⟩ := Option.map_eq_some_iff.1 hτ
      exact ⟨sc, hsc⟩
    · exact ⟨sc', hτ⟩

theorem registerBlockUp_upholds (tag : String) (location : Location) (id : BlockId)
    (scopes : List ScopeId) (r : Registry) :
    After True (registerBlockUp tag location id scopes) r fun _ r' => Upholds r r' := by
  induction scopes generalizing r with
  | nil =>
    unfold registerBlockUp
    rw [After.bind_iff, After.get_iff]
    split
    · exact trivial
    · exact .of_eq rfl rfl
  | cons σ rest ih =>
    unfold registerBlockUp
    rw [After.bind_iff, After.get_iff]
    dsimp only
    split
    · exact trivial
    · rw [After.bind_iff, After.set_iff]
      have h := Upholds.modifyBlocks r σ tag id
      split
      · exact (ih _).mono fun _ _ h' => h.trans h'
      · exact h

theorem registerBlock_upholds (σ : ScopeId) (tag : String) (e : BlockEntry) (r : Registry) :
    After True (registerBlock σ tag e) r fun _ r' => Upholds r r' := by
  unfold registerBlock
  rw [After.bind_iff, After.get_iff]
  dsimp only
  rw [After.bind_iff, After.set_iff, After.bind_iff]
  have h : Upholds r { r with blocks := r.blocks.push e } := .of_eq rfl rfl
  exact (registerBlockUp_upholds tag _ _ _ _).mono fun _ _ h' => h.trans h'

end Registry

end Folio
