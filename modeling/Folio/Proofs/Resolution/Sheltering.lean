import Folio.Proofs.Resolution.Arguments
import Folio.Proofs.Scope.Sheltered

/-!
# Collections whose expansions are domestic

A block that is defined inside another one gets known in other documents by an absolute tag only. If
there is none (`Collection.InnerBlocksRelative`), the registry is sheltered at each step of
registration (`Run.Upkeep.sheltered`), so expansions are domestic at its end
(`Run.registerAll_sheltered`).
-/

namespace Folio

open Resolution

/-- No block that is defined inside another one has an absolute tag. -/
def Collection.InnerBlocksRelative (c : Collection) : Prop :=
  ∀ b, c.HasBlock b → ∀ inner ∈ b.blocks, Path.isAbs inner.tag = false

namespace Run

variable {c : Collection} {s : Resolution} {f : FrameId} {frame : Frame}

/-- Blocks are registered in the scope of a document, or with relative tags. -/
theorem registerBlocks_sheltered (h : s.registry.Sheltered) {σ : ScopeId} {sc : Scope}
    (hσ : s.registry.scope? σ = some sc) (f : FrameId) {blocks : List Block}
    (htags : sc.parent.isSome → ∀ b ∈ blocks, Path.isAbs b.tag = false) :
    After True (registerBlocks σ f blocks) s fun _ s' => s'.registry.Sheltered := by
  refine After.mono (Q := fun _ s' => s'.registry.Sheltered ∧ s.registry.Upholds s'.registry)
    (After.forM (fun b hb s₁ h₁ => ?_) ⟨h, .refl _⟩) fun _ _ h => h.1
  rw [After.bind_iff]
  refine (bindDefaults_notes f b.parameters [] s₁).mono fun defaults s₂ ⟨_, hmarks⟩ => ?_
  have hup : s.registry.Upholds s₂.registry := h₁.2.trans hmarks.upholds
  obtain ⟨sc', hσ', hplace, -⟩ := hup.scope σ sc hσ
  rw [After.bind_iff, registry_iff]
  refine ((Registry.registerBlock_sheltered (h₁.1.marks hmarks) hσ' fun hp => ?_).and
    (Registry.registerBlock_upholds _ _ _ _)).mono fun _ _ h₃ => ⟨h₃.1, hup.trans h₃.2⟩
  rw [Scope.parent_eq_of_place hplace] at hp
  exact htags hp b hb

/-- A block is expanded that is defined in a document, or in an expansion in the same document. -/
theorem expandBlock_sheltered (h : s.registry.Sheltered) {entry : BlockEntry} {outer : Scope}
    (houter : s.registry.scope? entry.scope = some outer)
    (hhome : outer.parent.isSome → s.documentOf f = outer.document)
    (htags : ∀ b ∈ entry.block.blocks, Path.isAbs b.tag = false) (tag : Option String)
    (location : Location) :
    After True (expandBlock f entry tag location) s fun _ s' => s'.registry.Sheltered := by
  refine expandBlock_after fun name r r' calls hn hc => ?_
  have hnamed := Registry.Marks.nextName hn
  have hchild := Registry.Marks.addChild hc
  obtain ⟨outer', houter', hplace, -⟩ := hnamed.upholds.scope _ outer houter
  have hopened := (h.marks hnamed).newScope name (s.documentOf f) (some (s.scopeOf f))
    (some entry.scope) fun τ hτ => by
      cases hτ
      refine ⟨outer', houter', fun hp => ?_⟩
      rw [Scope.parent_eq_of_place hplace] at hp
      rw [hhome hp, Scope.document_eq_of_place hplace]
  obtain ⟨sc, hσ, -⟩ := r.exists_scope?_newScope name (s.documentOf f) (some (s.scopeOf f))
    (some entry.scope)
  obtain ⟨sc', hσ', -⟩ := hchild.upholds.scope _ sc hσ
  exact registerBlocks_sheltered (hopened.marks hchild) hσ' _ fun _ => htags

theorem bindParameters_sheltered (h : s.registry.Sheltered) (caller inner : FrameId)
    (location : Location) (entry : BlockEntry) (arguments : Table InlineText) :
    After True (bindParameters caller inner location entry arguments) s
      fun _ s' => s'.registry.Sheltered := by
  unfold bindParameters
  refine After.forM (I := fun s' : Resolution => s'.registry.Sheltered) (fun p _ s₁ h₁ => ?_) h
  dsimp only
  split
  · unfold addValue
    rw [bind_assoc, After.bind_iff, After.get_iff]
    dsimp only
    rw [bind_assoc, After.bind_iff, After.set_iff, pure_bind]
    unfold setValue
    rw [After.modify_iff]
    exact (h₁.marks (.addValue _ _)).setValue _ _ _
  · rw [pure_bind]
    unfold setValue
    rw [After.modify_iff]
    exact h₁.setValue _ _ _
  · exact trivial

theorem enterBlock_sheltered (h : s.registry.Sheltered) (location : Location) {entry : BlockEntry}
    {outer : Scope} (houter : s.registry.scope? entry.scope = some outer)
    (hf : s.frame? f = some frame)
    (hhome : outer.parent.isSome → frame.document = outer.document)
    (htags : ∀ b ∈ entry.block.blocks, Path.isAbs b.tag = false) (tag : Option String)
    (arguments : Table InlineText) :
    After True (enterBlock f location entry tag arguments) s
      fun _ s' => s'.registry.Sheltered := by
  unfold enterBlock
  cases arguments.keys.find? fun name => !entry.block.parameters.any (·.name = name) with
  | some name => exact trivial
  | none =>
    dsimp only
    rw [After.bind_iff]
    refine (Calmly.reading.expansionTag f location tag s).mono fun tag s₁ hcalm => ?_
    rw [After.bind_iff]
    refine (expandBlock_sheltered (hcalm.registry ▸ h) (hcalm.registry ▸ houter) (fun hp => ?_)
      htags tag location).mono fun inner s₂ h₂ => ?_
    · rw [documentOf_eq (hcalm.frame f frame hf), hhome hp]
    · rw [After.bind_iff]
      exact (bindParameters_sheltered h₂ f inner location entry arguments).mono fun _ _ h₃ => h₃

/-- The block that is found is defined in a document, or in an expansion around the block
reference. -/
theorem openExpansion_sheltered (hin : c.InnerBlocksRelative) (hs : s.Hygienic c)
    (hp : s.Proper c) (hf : s.frame? f = some frame) (h : s.registry.Sheltered)
    (location : Location) (block : String) (tag : Option String) (arguments : Table InlineText) :
    After True (openExpansion f location block tag arguments) s
      fun _ s' => s'.registry.Sheltered := by
  unfold openExpansion
  rw [After.bind_iff]
  refine (readLink_safely hp f location block).ends.after.mono ?_
  rintro link s' ⟨-, -, rfl, -⟩
  rw [After.bind_iff, After.get_iff, After.bind_iff, orFail_iff]
  refine ⟨fun entry hentry => ?_, fun _ => trivial⟩
  obtain ⟨b, hl, hb⟩ := Option.bind_eq_some_iff.1 hentry
  rw [scopeOf_eq hf] at hl
  obtain ⟨sc, hσ, hdoc⟩ := hs.home f frame hf
  obtain ⟨outer, houter, hfound⟩ := h.exists_outer hs.rooted hσ hl hb
  refine enterBlock_sheltered h location houter hf (fun hinner => ?_)
    (hin _ (hp.registry.block b entry hb).1) tag arguments
  obtain ⟨heq, hparent⟩ := hfound hinner
  rw [hdoc h.domestic hparent, heq]

/-! ## Documents -/

theorem addDocument_sheltered (h : s.registry.Sheltered) (d : Document) :
    After True (addDocument d) s fun _ s' => s'.registry.Sheltered := h.addDocument d.path

theorem Upkeep.sheltered (hin : c.InnerBlocksRelative) :
    Upkeep c fun s => s.Hygienic c ∧ s.registry.Sheltered := by
  refine .hygienic .marks (openExpansion_sheltered hin) fun {s f frame} hs hf hparent h blocks => ?_
  obtain ⟨sc, hσ, hnone⟩ := hs.outermost f frame hf hparent
  refine registerBlocks_sheltered h hσ f fun hp => ?_
  rw [hnone] at hp
  cases hp

/-- Registration is sheltered if no block inside another one has an absolute tag. -/
theorem registerAll_sheltered (hc : c.Described) (hin : c.InnerBlocksRelative) :
    After True (registerAll (c.documents.map Prod.snd)) c.start
      fun _ s => s.registry.Sheltered := by
  refine ((Upkeep.sheltered hin).registerAll hc ?_).mono fun _ _ h => h.2
  refine .forM (fun d _ s hs => ?_) ⟨.start c, ?_⟩
  · exact (addDocument_hygienic hs.1 d).and (addDocument_sheltered hs.2 d)
  · exact ⟨nofun, nofun, nofun, nofun⟩

end Run

end Folio
