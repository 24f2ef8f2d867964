import Folio.Proofs.Resolution.Ledger
import Folio.Proofs.Resolution.Safely

/-!
# Steps that register no labeled node

Most of what registration does has nothing to do with labeled nodes: it is *modest* (`Run.Modest`).
Such a step gives out no id and puts no anchor into a scope (`Resolution.SameIds`), and if it fails,
it is not because an anchor is taken. Whether it succeeds or fails is looked at together, so that
nothing has to be known about the state that the step begins with.
-/

namespace Folio

open Resolution

/-- Does an error say that the anchor of a labeled node is taken? -/
def ResolveError.TakenAnchor : ResolveError → Prop
  | located _ cause => cause.TakenAnchor
  | _ => False

/-- The labeled nodes are the same, and so are the anchors in the scopes. New scopes have none. -/
structure Registry.SameIds (r r' : Registry) : Prop where
  entries : r'.entries = r.entries
  anchors : ∀ σ sc', r'.scope? σ = some sc' → sc'.anchors = [] ∨
    ∃ sc, r.scope? σ = some sc ∧ sc.anchors = sc'.anchors ∧ sc.document = sc'.document

/-- Besides, no id is given out. -/
structure Resolution.SameIds (s s' : Resolution) : Prop where
  registry : s.registry.SameIds s'.registry
  ledger : s'.ledger = s.ledger

namespace Registry

variable {r r' r'' : Registry}

namespace SameIds

theorem refl (r : Registry) : SameIds r r := ⟨rfl, fun _ sc h => .inr ⟨sc, h, rfl, rfl⟩⟩

theorem trans (h : SameIds r r') (h' : SameIds r' r'') : SameIds r r'' where
  entries := h'.entries.trans h.entries
  anchors σ sc'' hσ := by
    obtain hnil | ⟨sc', hσ', ha', hd'⟩ := h'.anchors σ sc'' hσ
    · exact .inl hnil
    · obtain hnil | ⟨sc, hσ, ha, hd⟩ := h.anchors σ sc' hσ'
      · exact .inl (ha' ▸ hnil)
      · exact .inr ⟨sc, hσ, ha.trans ha', hd.trans hd'⟩

theorem of_scopes (he : r'.entries = r.entries) (hs : r'.scopes = r.scopes) : SameIds r r' :=
  ⟨he, fun σ sc h => .inr ⟨sc, by rwa [scope?, ← hs], rfl, rfl⟩⟩

theorem modifyScope (r : Registry) (σ : ScopeId) {f : Scope → Scope}
    (ha : ∀ sc, (f sc).anchors = sc.anchors) (hd : ∀ sc, (f sc).document = sc.document) :
    SameIds r (r.modifyScope σ f) := by
  refine ⟨rfl, fun τ sc' h => .inr ?_⟩
  rw [scope?_modifyScope] at h
  split at h
  · obtain ⟨sc, hsc, rfl⟩ := Option.map_eq_some_iff.1 h
    exact ⟨sc, hsc, (ha sc).symm, (hd sc).symm⟩
  · exact ⟨sc', h, rfl, rfl⟩

theorem newScope (r : Registry) (name document : String) (parent origin : Option ScopeId) :
    SameIds r (r.newScope name document parent origin).2 := by
  refine ⟨rfl, fun σ sc h => ?_⟩
  obtain ⟨σ⟩ := σ
  simp only [scope?, Registry.newScope, Array.getElem?_push] at h
  split at h
  · cases h
    exact .inl rfl
  · exact .inr ⟨sc, h, rfl, rfl⟩

theorem nextName {σ : ScopeId} {name n : String} {extend : Bool}
    (h : r.nextName σ name extend = .ok (n, r')) : SameIds r r' := by
  unfold Registry.nextName at h
  dsimp only at h
  split at h <;> cases h
  exact modifyScope r σ (fun _ => rfl) fun _ => rfl

theorem addChild {σ child : ScopeId} {name : String} (h : r.addChild σ name child = .ok r') :
    SameIds r r' := by
  unfold Registry.addChild at h
  split at h <;> cases h
  exact modifyScope r σ (fun _ => rfl) fun _ => rfl

end SameIds

theorem registerTagUp_modest (typ : String) (e : TagEntry) (explicit : Bool)
    (scopes : List ScopeId) (document tag : String) (r : Registry) :
    Ends (¬ResolveError.TakenAnchor ·) (registerTagUp typ e explicit scopes document tag) r
      fun _ r' => SameIds r r' := by
  induction scopes generalizing document tag r with
  | nil => exact .refl r
  | cons σ rest ih =>
    unfold registerTagUp
    rw [Ends.bind_iff, Ends.get_iff]
    split
    · exact ih _ _ r
    · split
      · exact not_false
      · rw [Ends.bind_iff, Ends.set_iff]
        have h : SameIds r (r.modifyScope σ fun sc =>
            { sc with tags := ((typ, tag), e) :: sc.tags }) :=
          .modifyScope r σ (fun _ => rfl) fun _ => rfl
        exact (ih _ _ _).mono fun _ _ h' => h.trans h'

theorem registerTag_modest (σ : ScopeId) (typ tag : String) (e : TagEntry) (explicit : Bool)
    (r : Registry) :
    Ends (¬ResolveError.TakenAnchor ·) (registerTag σ typ tag e explicit) r
      fun _ r' => SameIds r r' := by
  unfold registerTag
  rw [Ends.bind_iff, Ends.get_iff, Ends.bind_iff]
  refine (registerTagUp_modest typ e explicit (r.dynamicChain σ) "" tag r).mono ?_
  rintro ⟨document, tag⟩ r' h
  dsimp only
  rw [Ends.bind_iff, Ends.get_iff]
  split
  · exact not_false
  · exact h.trans (.of_scopes rfl rfl)

theorem registerBlockUp_modest (tag : String) (location : Location) (id : BlockId)
    (scopes : List ScopeId) (r : Registry) :
    Ends (¬ResolveError.TakenAnchor ·) (registerBlockUp tag location id scopes) r
      fun _ r' => SameIds r r' := by
  induction scopes generalizing r with
  | nil =>
    unfold registerBlockUp
    rw [Ends.bind_iff, Ends.get_iff]
    dsimp only
    split
    · exact not_false
    · exact .of_scopes rfl rfl
  | cons σ rest ih =>
    unfold registerBlockUp
    rw [Ends.bind_iff, Ends.get_iff]
    dsimp only
    split
    · exact not_false
    · rw [Ends.bind_iff, Ends.set_iff]
      have h : SameIds r (r.modifyScope σ fun sc => { sc with blocks := (tag, id) :: sc.blocks }) :=
        .modifyScope r σ (fun _ => rfl) fun _ => rfl
      split
      · exact (ih _).mono fun _ _ h' => h.trans h'
      · exact h

theorem registerBlock_modest (σ : ScopeId) (tag : String) (e : BlockEntry) (r : Registry) :
    Ends (¬ResolveError.TakenAnchor ·) (registerBlock σ tag e) r fun _ r' => SameIds r r' := by
  unfold registerBlock
  rw [Ends.bind_iff, Ends.get_iff]
  dsimp only
  rw [Ends.bind_iff, Ends.set_iff, Ends.bind_iff]
  have h : SameIds r { r with blocks := r.blocks.push e } := .of_scopes rfl rfl
  exact (registerBlockUp_modest tag _ _ _ _).mono fun _ _ h' => h.trans h'

end Registry

namespace Resolution.SameIds

variable {s s' s'' : Resolution}

theorem refl (s : Resolution) : s.SameIds s := ⟨.refl _, rfl⟩

theorem trans (h : s.SameIds s') (h' : s'.SameIds s'') : s.SameIds s'' :=
  ⟨h.registry.trans h'.registry, h'.ledger.trans h.ledger⟩

/-- What is done besides to frames and to the registry does not matter. -/
theorem of_eq (hf : s'.frames = s.frames) (hr : s'.registry = s.registry) : s.SameIds s' :=
  ⟨hr ▸ .refl _, ledger_congr hf⟩

theorem push (s : Resolution) {frame : Frame} (hk : ∀ typ, frame.kind.counts typ = false) :
    s.SameIds { s with frames := s.frames.push frame } := ⟨.refl _, ledger_push hk⟩

theorem withRegistry {r : Registry} (h : s.registry.SameIds r) :
    s.SameIds { s with registry := r } := ⟨h, ledger_congr rfl⟩

end Resolution.SameIds

/-- The step registers no labeled node, and does not fail because an anchor is taken. -/
def Run.Modest {α : Type} (m : Run α) : Prop :=
  ∀ s, Ends (¬ResolveError.TakenAnchor ·) m s fun _ s' => s.SameIds s'

namespace Run

variable {α β : Type}

namespace Modest

theorem pure (a : α) : Modest (Pure.pure a) := fun s => .refl s

theorem bind {m : Run α} {k : α → Run β} (hm : Modest m) (hk : ∀ a, Modest (k a)) :
    Modest (m >>= k) := by
  intro s
  rw [Ends.bind_iff]
  exact (hm s).mono fun a s' h => (hk a s').mono fun _ _ h' => h.trans h'

theorem get_bind {k : Resolution → Run β} (hk : ∀ s, Ends (¬ResolveError.TakenAnchor ·) (k s) s
    fun _ s' => s.SameIds s') : Modest (get >>= k) := by
  intro s
  rw [Ends.bind_iff]
  exact hk s

theorem of_get {k : Resolution → Run β} (hk : ∀ s, Modest (k s)) : Modest (get >>= k) :=
  get_bind fun s => hk s s

theorem fail {location : Location} {cause : Cause} (h : ¬cause.TakenAnchor) :
    Modest (Run.fail location cause : Run α) := fun _ => h

theorem registry {step : Registry.Step α} (h : ∀ r, Ends (¬ResolveError.TakenAnchor ·) step r
    fun _ r' => r.SameIds r') : Modest (Run.registry step) :=
  fun s => registry_ends.2 ((h s.registry).mono fun _ _ hr => .withRegistry hr)

end Modest

/-! ## Texts and tags -/

theorem setState_modest (f : FrameId) (key : NodeKey) (state : NodeState) :
    Modest (setState f key state) := fun _ => .of_eq rfl rfl

/-- A frame that is opened for a value counts nothing. -/
theorem staticFrame_modest (f : FrameId) (binding : Binding) : Modest (staticFrame f binding) :=
  .get_bind fun s => .push s fun _ => rfl

theorem Modest.reading : Reading fun _ _ m => Modest m where
  pure := .pure
  bind := .bind
  of_get := .of_get
  fail := .fail
  openValue name _ h hk := by
    refine .bind (.get_bind fun s => .refl s) fun b => .bind ?_ fun binding => ?_
    · cases b with
      | none => exact .fail h
      | some binding => exact .pure binding
    · exact (staticFrame_modest _ binding).bind fun inner => hk binding inner

theorem registerText_modest (f : FrameId) (body : InlineText) : Modest (registerText f body) :=
  Modest.reading.registerText (fun _ => setState_modest) f body

/-! ## Expansions -/

theorem addValue_modest (body : InlineText) (f : FrameId) : Modest (addValue body f) :=
  .get_bind fun s => .withRegistry (s := s) (.of_scopes rfl rfl)

theorem bindDefaults_modest (f : FrameId) (ps : List Parameter) (defaults : Table ValueId) :
    Modest (bindDefaults f ps defaults) := by
  induction ps generalizing defaults with
  | nil => exact .pure defaults
  | cons p rest ih =>
    unfold bindDefaults
    split
    · exact ih defaults
    next body _ =>
      refine .get_bind fun s => ?_
      dsimp only
      rw [Ends.bind_iff, Ends.set_iff]
      have h : s.SameIds { s with registry := (s.registry.addValue ⟨body, f⟩).2 } :=
        .withRegistry (.of_scopes rfl rfl)
      exact (ih _ _).mono fun _ _ h' => h.trans h'

theorem registerBlocks_modest (scope : ScopeId) (f : FrameId) (blocks : List Block) :
    Modest (registerBlocks scope f blocks) :=
  Modest.reading.forM f blocks fun block _ => (bindDefaults_modest f block.parameters []).bind fun _ =>
    (Modest.registry fun r => Registry.registerBlock_modest _ _ _ r).bind fun _ => .pure _

/-- A new scope has no anchors, and the frame of an expansion counts nothing. -/
theorem expandBlock_modest (f : FrameId) (entry : BlockEntry) (tag : Option String)
    (location : Location) : Modest (expandBlock f entry tag location) := by
  refine .get_bind fun s => ?_
  dsimp only
  rcases hn : s.registry.nextName (s.scopeOf f) (tag.getD (scopeName entry.block.tag))
    tag.isNone with cause | ⟨name, r⟩
  · exact not_false
  rw [Ends.bind_iff, Ends.pure_iff]
  dsimp only
  rw [Ends.bind_iff, Ends.set_iff]
  cases (s.callStack f).add? entry.block.name location with
  | error cycle => exact not_false
  | ok calls =>
    dsimp only
    rw [Ends.bind_iff, Ends.pure_iff, Ends.bind_iff, Ends.modify_iff]
    have hopened := (Registry.SameIds.nextName hn).trans
      (.newScope r name (s.documentOf f) (some (s.scopeOf f)) (some entry.scope))
    split
    next r' hchild =>
      rw [Ends.bind_iff, Ends.modify_iff, Ends.bind_iff]
      have h₁ : s.SameIds { s with registry := r' } :=
        .withRegistry (hopened.trans (.addChild hchild))
      refine Ends.mono (Q := fun _ s₂ => s.SameIds s₂) (h₁.trans (.push _ fun _ => rfl))
        fun inner s₂ h₂ => ?_
      rw [Ends.bind_iff]
      exact (registerBlocks_modest _ inner _ s₂).mono fun _ _ h₃ => h₂.trans h₃
    · exact not_false

theorem bindParameters_modest (caller inner : FrameId) (location : Location)
    (entry : BlockEntry) (arguments : Table InlineText) :
    Modest (bindParameters caller inner location entry arguments) := by
  have hset : ∀ name value, Modest (setValue inner name value) := fun name value s =>
    .withRegistry (s := s) (.modifyScope _ _ (fun _ => rfl) fun _ => rfl)
  refine Modest.reading.forM inner _ fun p _ => ?_
  dsimp only
  split
  · exact (addValue_modest _ caller).bind (hset p.name)
  · exact hset p.name _
  · refine .bind ?_ (hset p.name)
    exact .fail not_false

theorem openExpansion_modest (f : FrameId) (location : Location) (block : String)
    (tag : Option String) (arguments : Table InlineText) :
    Modest (openExpansion f location block tag arguments) := by
  refine (Modest.reading.readLink f location block).bind fun link => .of_get fun s =>
    .bind (Modest.reading.orFail f ?_ _) fun entry => ?_
  · exact not_false
  dsimp only
  split
  · exact fun _ => not_false
  · refine (Modest.reading.expansionTag f location tag).bind fun tag => ?_
    exact (expandBlock_modest f entry tag location).bind fun inner =>
      (bindParameters_modest f inner location entry arguments).bind fun _ => .pure _

/-! ## Documents and terms -/

theorem requestRange_modest (f : FrameId) (typ : String) : Modest (requestRange f typ) :=
  fun _ => .of_eq rfl rfl

theorem requestDocument_modest (f : FrameId) (link : Link) (location : Location) :
    Modest (requestDocument f link location) := by
  refine .get_bind fun s => ?_
  split
  · exact .refl s
  · split
    · exact not_false
    · exact .of_eq rfl rfl

theorem registerTerm_modest (f : FrameId) (key : NodeKey) (location : Location) (tag : String)
    (text : InlineText) : Modest (registerTerm f key location tag text) := by
  refine (Modest.reading.evaluateTag f location tag).bind fun evaluated => .of_get fun s => ?_
  refine (Modest.registry fun r => Registry.registerTag_modest _ _ _ _ _ r).bind fun _ => ?_
  exact (setState_modest f key _).bind fun _ => registerText_modest f text

end Run

end Folio
