import Folio.Proofs.Scope.Values

/-!
# Blocks that stay in their expansions

A block that is defined in an expansion is known in the scope of that only, if its tag is relative.
So it is found from the scopes inside only, in the document of the expansion. A registry is
*sheltered* (`Registry.Sheltered`) if this holds of all blocks. Then it is domestic, and stays so when
a scope is opened for a block that is found (`Sheltered.exists_outer`, `Sheltered.newScope`) and when
blocks are registered (`registerBlock_sheltered`).
-/

namespace Folio

namespace Registry

variable {r r' : Registry}

/-- The block is defined in a document, or in the expansion with the scope `σ`. -/
def OwnedBy (r : Registry) (id : BlockId) (σ : Option ScopeId) : Prop :=
  ∃ e sc, r.block? id = some e ∧ r.scope? e.scope = some sc ∧ (sc.parent.isSome → σ = some e.scope)

/-- The static parent of a scope is there, in the same document if it is the scope of an
expansion. -/
def Harbors (r : Registry) (sc : Scope) : Prop :=
  ∀ τ, sc.origin = some τ → ∃ outer, r.scope? τ = some outer ∧
    (outer.parent.isSome → sc.document = outer.document)

/-- Blocks that are defined in an expansion are known in the scope of it only. -/
structure Sheltered (r : Registry) : Prop where
  scope : ∀ σ sc tag id, r.scope? σ = some sc → sc.blocks.lookup tag = some id →
    r.OwnedBy id (some σ)
  index : ∀ tag id, r.index.blocks.lookup tag = some id → r.OwnedBy id none
  documents : ∀ path σ, r.index.documents.lookup path = some σ → ∃ sc, r.scope? σ = some sc ∧
    sc.parent = none
  origin : ∀ σ sc, r.scope? σ = some sc → r.Harbors sc

theorem OwnedBy.mono {id : BlockId} {σ : Option ScopeId} (h : r.OwnedBy id σ)
    (hs : ∀ σ sc, r.scope? σ = some sc → ∃ sc', r'.scope? σ = some sc' ∧ sc'.place = sc.place)
    (hb : ∀ id e, r.block? id = some e → r'.block? id = some e) : r'.OwnedBy id σ := by
  obtain ⟨e, sc, he, hsc, howned⟩ := h
  obtain ⟨sc', hsc', hplace⟩ := hs _ sc hsc
  refine ⟨e, sc', hb id e he, hsc', fun hp => howned ?_⟩
  rwa [Scope.parent_eq_of_place hplace] at hp

namespace Sheltered

theorem domestic (h : r.Sheltered) : r.Domestic := by
  intro σ τ sc outer hσ ho hτ hp
  obtain ⟨outer', hτ', hdoc⟩ := h.origin σ sc hσ τ ho
  cases hτ.symm.trans hτ'
  exact hdoc hp

/-- A block is defined in a scope that is there. If that is the scope of an expansion, the block is
found inside only, in the document of the expansion. -/
theorem exists_outer (h : r.Sheltered) (hr : ∀ σ sc, r.scope? σ = some sc → sc.Rooted)
    {σ : ScopeId} {sc : Scope} (hσ : r.scope? σ = some sc) {link : Link} {id : BlockId}
    (hl : r.lookupBlock σ link = some id) {e : BlockEntry} (he : r.block? id = some e) :
    ∃ outer, r.scope? e.scope = some outer ∧
      (outer.parent.isSome → sc.document = outer.document ∧ sc.parent.isSome) := by
  unfold lookupBlock at hl
  rw [Option.or_eq_some_iff] at hl
  rcases hl with hl | ⟨-, hl⟩
  · -- the scope that knows the block is the one that it is defined in
    obtain ⟨ρ, hρ, hl⟩ := List.exists_of_findSome?_eq_some hl
    obtain ⟨rsc, hrsc, hl⟩ := Option.bind_eq_some_iff.1 hl
    unfold atAnchor at hl
    split at hl
    · cases hl
    · obtain ⟨e', outer, he', houter, howned⟩ := h.scope ρ rsc _ id hrsc hl
      cases he.symm.trans he'
      refine ⟨outer, houter, fun hp => ?_⟩
      cases howned hp
      exact h.domestic.document_eq hr hσ hρ houter hp
  · cases link with
    | tag name =>
      obtain ⟨e', outer, he', houter, howned⟩ := h.index name id hl
      cases he.symm.trans he'
      refine ⟨outer, houter, fun hp => ?_⟩
      cases howned hp
    | place path anchor =>
      -- the scopes of documents have no parents
      obtain ⟨top, htop, hl⟩ := Option.bind_eq_some_iff.1 hl
      obtain ⟨ρ, hρ, htop⟩ := Option.bind_eq_some_iff.1 htop
      obtain ⟨e', outer, he', houter, howned⟩ := h.scope ρ top _ id htop hl
      cases he.symm.trans he'
      refine ⟨outer, houter, fun hp => ?_⟩
      cases howned hp
      obtain ⟨top', htop', hnone⟩ := h.documents path e.scope hρ
      cases houter.symm.trans htop'
      rw [hnone] at hp
      cases hp

/-! ## Steps -/

/-- What is new must be as it should: scopes, the blocks that they know, and documents. -/
theorem extend (h : r.Sheltered)
    (hs : ∀ σ sc, r.scope? σ = some sc → ∃ sc', r'.scope? σ = some sc' ∧ sc'.place = sc.place)
    (hb : ∀ id e, r.block? id = some e → r'.block? id = some e)
    (hscope : ∀ σ sc', r'.scope? σ = some sc' →
      (∃ sc, r.scope? σ = some sc ∧ sc'.place = sc.place) ∨ r.Harbors sc')
    (hblocks : ∀ σ sc' tag id, r'.scope? σ = some sc' → sc'.blocks.lookup tag = some id →
      r.OwnedBy id (some σ) ∨ r'.OwnedBy id (some σ))
    (hindex : ∀ tag id, r'.index.blocks.lookup tag = some id →
      r.OwnedBy id none ∨ r'.OwnedBy id none)
    (hdocuments : ∀ path σ, r'.index.documents.lookup path = some σ →
      r.index.documents.lookup path = some σ ∨ ∃ sc, r'.scope? σ = some sc ∧ sc.parent = none) :
    r'.Sheltered where
  scope σ sc' tag id hσ ht := (hblocks σ sc' tag id hσ ht).elim (·.mono hs hb) fun h => h
  index tag id ht := (hindex tag id ht).elim (·.mono hs hb) fun h => h
  documents path σ hσ := by
    rcases hdocuments path σ hσ with hold | hnew
    · obtain ⟨sc, hsc, hp⟩ := h.documents path σ hold
      obtain ⟨sc', hsc', hplace⟩ := hs σ sc hsc
      exact ⟨sc', hsc', (Scope.parent_eq_of_place hplace).trans hp⟩
    · exact hnew
  origin σ sc' hσ τ ho := by
    have hharbors : r.Harbors sc' := by
      rcases hscope σ sc' hσ with ⟨sc, hsc, hplace⟩ | hnew
      · intro τ ho
        rw [Scope.origin_eq_of_place hplace] at ho
        rw [Scope.document_eq_of_place hplace]
        exact h.origin σ sc hsc τ ho
      · exact hnew
    obtain ⟨outer, houter, hdoc⟩ := hharbors τ ho
    obtain ⟨outer', houter', hplace⟩ := hs τ outer houter
    refine ⟨outer', houter', fun hp => ?_⟩
    rw [Scope.parent_eq_of_place hplace] at hp
    rw [hdoc hp, Scope.document_eq_of_place hplace]

/-- Nothing is new for blocks. -/
theorem of_scopes (h : r.Sheltered)
    (hs : ∀ σ sc, r.scope? σ = some sc → ∃ sc', r'.scope? σ = some sc' ∧ sc'.place = sc.place)
    (hold : ∀ σ sc', r'.scope? σ = some sc' → ∃ sc, r.scope? σ = some sc ∧
      sc'.place = sc.place ∧ sc'.blocks = sc.blocks)
    (hb : r'.blocks = r.blocks) (hi : r'.index.blocks = r.index.blocks)
    (hd : r'.index.documents = r.index.documents) : r'.Sheltered := by
  refine h.extend hs (fun id e he => by rwa [block?, hb]) (fun σ sc' hσ => ?_)
    (fun σ sc' tag id hσ ht => ?_) (fun tag id ht => .inl (h.index tag id (hi ▸ ht)))
    fun path σ hσ => .inl (hd ▸ hσ)
  · obtain ⟨sc, hsc, hplace, -⟩ := hold σ sc' hσ
    exact .inl ⟨sc, hsc, hplace⟩
  · obtain ⟨sc, hsc, -, hblocks⟩ := hold σ sc' hσ
    exact .inl (h.scope σ sc tag id hsc (hblocks ▸ ht))

theorem marks (h : r.Sheltered) (hm : Marks r r') : r'.Sheltered := by
  refine h.of_scopes (fun σ sc hσ => ?_) (fun σ sc' hσ => ?_) hm.blocks hm.index hm.documents
  · obtain ⟨sc', hσ', hu⟩ := hm.symm_scope? hσ
    exact ⟨sc', hσ', Scope.place_eq_of_unnamed hu⟩
  · obtain ⟨sc, hsc, hu⟩ := hm.scope?_eq_some hσ
    exact ⟨sc, hsc, Scope.place_eq_of_unnamed hu, Scope.blocks_eq_of_unnamed hu⟩

theorem setValue (h : r.Sheltered) (σ : ScopeId) (name : String) (v : ValueId) :
    (r.setValue σ name v).Sheltered := by
  have hscope : ∀ τ, (r.setValue σ name v).scope? τ = if τ = σ then
      (r.scope? τ).map fun sc => { sc with values := (name, v) :: sc.values } else r.scope? τ :=
    scope?_modifyScope σ _
  refine h.of_scopes (fun τ sc hτ => ?_) (fun τ sc' hτ => ?_) rfl rfl rfl
  · rw [hscope, hτ]
    split
    · exact ⟨_, rfl, rfl⟩
    · exact ⟨sc, rfl, rfl⟩
  · rw [hscope] at hτ
    split at hτ
    · obtain ⟨sc, hsc, rfl⟩ := Option.map_eq_some_iff.1 hτ
      exact ⟨sc, hsc, rfl, rfl⟩
    · exact ⟨sc', hτ, rfl, rfl⟩

/-- A scope is opened. It knows no blocks. -/
theorem newScope (h : r.Sheltered) (name document : String) (parent origin : Option ScopeId)
    (hhome : ∀ τ, origin = some τ → ∃ outer, r.scope? τ = some outer ∧
      (outer.parent.isSome → document = outer.document)) :
    (r.newScope name document parent origin).2.Sheltered := by
  have hcases : ∀ σ sc, (r.newScope name document parent origin).2.scope? σ = some sc →
      r.scope? σ = some sc ∨ sc.origin = origin ∧ sc.document = document ∧ sc.blocks = [] := by
    rintro ⟨σ⟩ sc hσ
    simp only [scope?, Registry.newScope, Array.getElem?_push] at hσ
    split at hσ
    · cases hσ
      exact .inr ⟨rfl, rfl, rfl⟩
    · exact .inl hσ
  refine h.extend (fun σ sc hσ => ?_) (fun _ _ he => he) (fun σ sc hσ => ?_)
    (fun σ sc tag id hσ ht => ?_) (fun tag id ht => .inl (h.index tag id ht)) fun _ _ hσ => .inl hσ
  · obtain ⟨sc', hσ', hplace, -⟩ := (Retains.newScope r name document parent origin).scope σ sc hσ
    exact ⟨sc', hσ', hplace⟩
  · obtain hold | ⟨horigin, hdoc, -⟩ := hcases σ sc hσ
    · exact .inl ⟨sc, hold, rfl⟩
    · rw [Harbors, horigin, hdoc]
      exact .inr hhome
  · obtain hold | ⟨-, -, hnil⟩ := hcases σ sc hσ
    · exact .inl (h.scope σ sc tag id hold ht)
    · rw [hnil] at ht
      cases ht

theorem addDocument (h : r.Sheltered) (document : String) :
    (r.addDocument document).2.Sheltered := by
  have hopened := h.newScope "" document none none nofun
  refine ⟨hopened.scope, hopened.index, fun path σ hσ => ?_, hopened.origin⟩
  change List.lookup path ((document, _) :: r.index.documents) = some σ at hσ
  rw [List.lookup_cons] at hσ
  split at hσ
  · cases hσ
    obtain ⟨sc, hsc, hparent, -⟩ := r.exists_scope?_newScope "" document none none
    exact ⟨sc, hsc, hparent⟩
  · exact hopened.documents path σ hσ

/-- A block gets known in a scope that may know it. -/
theorem modifyBlocks (h : r.Sheltered) {σ : ScopeId} (tag : String) {id : BlockId}
    (hid : r.OwnedBy id (some σ)) :
    (r.modifyScope σ fun sc => { sc with blocks := (tag, id) :: sc.blocks }).Sheltered := by
  have hscope := scope?_modifyScope (r := r) σ fun sc => { sc with blocks := (tag, id) :: sc.blocks }
  refine h.extend (fun τ sc hτ => ?_) (fun _ _ he => he) (fun τ sc' hτ => ?_)
    (fun τ sc' t i hτ ht => ?_) (fun t i ht => .inl (h.index t i ht)) fun _ _ hτ => .inl hτ
  · obtain ⟨sc', hτ', hplace, -⟩ := (Upholds.modifyBlocks r σ tag id).scope τ sc hτ
    exact ⟨sc', hτ', hplace⟩
  · rw [hscope] at hτ
    split at hτ
    · obtain ⟨sc, hsc, rfl⟩ := Option.map_eq_some_iff.1 hτ
      exact .inl ⟨sc, hsc, rfl⟩
    · exact .inl ⟨sc', hτ, rfl⟩
  · rw [hscope] at hτ
    split at hτ
    next heq =>
      subst heq
      obtain ⟨sc, hsc, rfl⟩ := Option.map_eq_some_iff.1 hτ
      change List.lookup t ((tag, id) :: sc.blocks) = some i at ht
      rw [List.lookup_cons] at ht
      split at ht
      · cases ht
        exact .inl hid
      · exact .inl (h.scope τ sc t i hsc ht)
    · exact .inl (h.scope τ sc' t i hτ ht)

end Sheltered

/-- A block is handed on only if its tag is absolute, so it must be the one of a document then. -/
theorem registerBlockUp_sheltered {tag : String} (location : Location) {id : BlockId}
    (scopes : List ScopeId) {r : Registry} (h : r.Sheltered)
    (hfirst : ∀ σ ∈ scopes.head?, r.OwnedBy id (some σ))
    (hrest : (scopes = [] ∨ Path.isAbs tag = true) → r.OwnedBy id none) :
    After True (registerBlockUp tag location id scopes) r fun _ r' => r'.Sheltered := by
  induction scopes generalizing r with
  | nil =>
    unfold registerBlockUp
    rw [After.bind_iff, After.get_iff]
    split
    · exact trivial
    · have hnone := hrest (.inl rfl)
      refine h.extend (fun σ sc hσ => ⟨sc, hσ, rfl⟩) (fun _ _ he => he)
        (fun σ sc hσ => .inl ⟨sc, hσ, rfl⟩) (fun σ sc t i hσ ht => .inl (h.scope σ sc t i hσ ht))
        (fun t i ht => .inl ?_) fun _ _ hσ => .inl hσ
      change List.lookup t ((tag, id) :: r.index.blocks) = some i at ht
      rw [List.lookup_cons] at ht
      split at ht
      · cases ht
        exact hnone
      · exact h.index t i ht
  | cons σ rest ih =>
    unfold registerBlockUp
    rw [After.bind_iff, After.get_iff]
    dsimp only
    split
    · exact trivial
    · rw [After.bind_iff, After.set_iff]
      have hknown := h.modifyBlocks tag (hfirst σ rfl)
      have hkeep : ∀ ρ, r.OwnedBy id ρ → (r.modifyScope σ fun sc =>
          { sc with blocks := (tag, id) :: sc.blocks }).OwnedBy id ρ := fun ρ hρ => by
        refine hρ.mono (fun τ sc hτ => ?_) fun _ _ he => he
        obtain ⟨sc', hτ', hplace, -⟩ := (Upholds.modifyBlocks r σ tag id).scope τ sc hτ
        exact ⟨sc', hτ', hplace⟩
      split
      next habs =>
        have hnone := hrest (.inr habs)
        have hany : ∀ ρ, r.OwnedBy id ρ := by
          obtain ⟨e, sc, he, hsc, howned⟩ := hnone
          refine fun ρ => ⟨e, sc, he, hsc, fun hp => ?_⟩
          cases howned hp
        exact ih hknown (fun τ _ => hkeep _ (hany _)) fun _ => hkeep _ hnone
      · exact hknown

/-- A block is registered in the scope that it is defined in, in an expansion with a relative
tag. -/
theorem registerBlock_sheltered {r : Registry} (h : r.Sheltered) {e : BlockEntry} {sc : Scope}
    (hσ : r.scope? e.scope = some sc) {tag : String}
    (htag : sc.parent.isSome → Path.isAbs tag = false) :
    After True (registerBlock e.scope tag e) r fun _ r' => r'.Sheltered := by
  unfold registerBlock
  rw [After.bind_iff, After.get_iff]
  dsimp only
  rw [After.bind_iff, After.set_iff, After.bind_iff]
  have hold : ∀ (id : BlockId) e', r.block? id = some e' →
      (r.blocks.push e)[id.index]? = some e' := fun id e' he' => by
    rw [Array.getElem?_push, if_neg (Nat.ne_of_lt (Array.getElem?_eq_some_iff.1 he').1)]
    exact he'
  have hpushed : Sheltered { r with blocks := r.blocks.push e } :=
    h.extend (fun σ sc hσ => ⟨sc, hσ, rfl⟩) hold (fun σ sc hσ => .inl ⟨sc, hσ, rfl⟩)
      (fun σ sc t i hσ ht => .inl (h.scope σ sc t i hσ ht)) (fun t i ht => .inl (h.index t i ht))
      fun _ _ hσ => .inl hσ
  have howned : ∀ ρ, (sc.parent.isSome → ρ = some e.scope) →
      OwnedBy { r with blocks := r.blocks.push e } ⟨r.blocks.size⟩ ρ :=
    fun ρ hρ => ⟨e, sc, Array.getElem?_push_size, hσ, hρ⟩
  -- the first of the scopes is the one that the block is defined in
  obtain ⟨rest, hchain⟩ : ∃ rest, r.dynamicChain e.scope = e.scope :: rest := by
    obtain ⟨n, hn⟩ : ∃ n, r.scopes.size = n + 1 :=
      Nat.exists_eq_add_one.2 (Nat.zero_lt_of_lt (Array.getElem?_eq_some_iff.1 hσ).1)
    rw [dynamicChain, hn]
    exact ⟨_, rfl⟩
  rw [hchain]
  refine (registerBlockUp_sheltered _ _ hpushed (fun σ hmem => ?_) ?_).mono fun _ _ h' => h'
  · cases hmem
    exact howned _ fun _ => rfl
  · rintro (hnil | habs)
    · cases hnil
    · refine howned _ fun hp => ?_
      rw [htag hp] at habs
      cases habs

end Registry

end Folio
