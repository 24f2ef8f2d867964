import Folio.Proofs.Resolution.Calm
import Folio.Proofs.Resolution.Walk
import Folio.Proofs.Scope.Naming

/-!
# Steps that fill scopes

Registering a text, a labeled node, an embedding, a term or blocks fills the scopes that are there,
and frames keep their scopes (`Run.Filling`). An expansion does more: it opens a scope below the one
of its frame, and fills scopes then (`Run.expandBlock_opensScope`).
-/

namespace Folio

open Resolution

namespace Resolution

variable {s s' s'' : Resolution}

/-- Scopes are filled, and frames keep theirs. -/
structure Fills (s s' : Resolution) : Prop where
  registry : s.registry.Fills s'.registry
  frame : ∀ f frame, s.frame? f = some frame → ∃ frame', s'.frame? f = some frame' ∧
    frame'.scope = frame.scope

namespace Fills

theorem refl (s : Resolution) : s.Fills s := ⟨.refl _, fun _ frame h => ⟨frame, h, rfl⟩⟩

theorem trans (h : s.Fills s') (h' : s'.Fills s'') : s.Fills s'' where
  registry := h.registry.trans h'.registry
  frame f frame hf := by
    obtain ⟨frame', hf', hs⟩ := h.frame f frame hf
    obtain ⟨frame'', hf'', hs'⟩ := h'.frame f frame' hf'
    exact ⟨frame'', hf'', hs'.trans hs⟩

theorem of_calm (h : s.Calm s') : s.Fills s' where
  registry := h.registry ▸ .refl _
  frame f frame hf := ⟨frame, h.frame f frame hf, rfl⟩

theorem of_registry {r : Registry} (h : s.registry.Fills r) : s.Fills { s with registry := r } :=
  ⟨h, fun _ frame hf => ⟨frame, hf, rfl⟩⟩

theorem push (s : Resolution) (frame : Frame) :
    s.Fills { s with frames := s.frames.push frame } where
  registry := .refl _
  frame f fr hf := ⟨fr, by rw [frame?_push, if_neg (freshFrame_of_frame? hf), hf], rfl⟩

theorem modifyKind (s : Resolution) (f : FrameId) (kind : FrameKind → FrameKind) :
    s.Fills (s.modifyKind f kind) where
  registry := .refl _
  frame g frame hg := by
    rw [frame?_modifyKind, hg]
    split
    · exact ⟨_, rfl, rfl⟩
    · exact ⟨frame, rfl, rfl⟩

theorem modifyInfo (s : Resolution) (d : String) (change : DocumentInfo → DocumentInfo) :
    s.Fills (s.modifyInfo d change) := ⟨.refl _, fun _ frame hf => ⟨frame, hf, rfl⟩⟩

end Fills

end Resolution

/-- The step fills scopes. -/
def Run.Filling {α : Type} (m : Run α) : Prop := ∀ s, After True m s fun _ s' => s.Fills s'

namespace Run

variable {α β : Type}

namespace Filling

theorem of_calm {m : Run α} (h : Calmly m) : Filling m := fun s => (h s).mono fun _ _ => .of_calm

theorem bind {m : Run α} {k : α → Run β} (hm : Filling m) (hk : ∀ a, Filling (k a)) :
    Filling (m >>= k) := by
  intro s
  rw [After.bind_iff]
  exact (hm s).mono fun a s' h => (hk a s').mono fun _ _ h' => h.trans h'

theorem get_bind {k : Resolution → Run β}
    (hk : ∀ s, After True (k s) s fun _ s' => s.Fills s') : Filling (get >>= k) := by
  intro s
  rw [After.bind_iff]
  exact hk s

theorem of_get {k : Resolution → Run β} (hk : ∀ s, Filling (k s)) : Filling (get >>= k) :=
  get_bind fun s => hk s s

theorem forM {k : α → Run PUnit} (xs : List α) (hk : ∀ x ∈ xs, Filling (k x)) :
    Filling (xs.forM k) := by
  induction xs with
  | nil => exact .of_calm (.pure PUnit.unit)
  | cons x xs ih =>
    change Filling (k x >>= fun _ => xs.forM k)
    exact (hk x (by simp)).bind fun _ => ih fun y hy => hk y (by simp [hy])

theorem registry {step : Registry.Step α} (h : ∀ r, After True step r fun _ r' => r.Fills r') :
    Filling (Run.registry step) := by
  intro s
  rw [registry_iff]
  exact (h s.registry).mono fun _ _ => .of_registry

end Filling

theorem nextId_filling (f : FrameId) (typ : String) : Filling (nextId f typ) := by
  refine .get_bind fun s => ?_
  dsimp only
  split
  · rw [After.bind_iff, After.set_iff]
    exact .modifyKind s _ _
  · rw [After.bind_iff, After.set_iff]
    exact .modifyKind s _ _
  · exact .refl s

theorem requestRange_filling (f : FrameId) (typ : String) : Filling (requestRange f typ) :=
  fun s => .modifyInfo s _ _

theorem requestRanges_filling (f : FrameId) (types : List String) :
    Filling (types.forM (requestRange f)) := .forM _ fun typ _ => requestRange_filling f typ

theorem requestDocument_filling (f : FrameId) (link : Link) (location : Location) :
    Filling (requestDocument f link location) := by
  refine .get_bind fun s => ?_
  split
  · exact .refl s
  · split
    · exact trivial
    · exact .modifyInfo s _ _

theorem subRangeFrame_filling (f : FrameId) (typ : String) (ids : Ordinals) :
    Filling (subRangeFrame f typ ids) := .get_bind fun s => .push s _

theorem registerHeading_filling (f : FrameId) (h : Heading) : Filling (registerHeading f h) := by
  rw [registerHeading_eq]
  refine .of_get fun s => (nextId_filling f _).bind fun ids => ?_
  refine Filling.bind (.of_calm (Calmly.reading.headingTags f h)) fun tags => ?_
  refine (requestRange_filling f _).bind fun _ => .of_get fun s => ?_
  refine (Filling.registry (Registry.registerEntry_fills _ _ _ _)).bind fun entry => ?_
  refine Filling.bind (.of_calm (registerText_calmly f h.title)) fun _ => ?_
  exact (subRangeFrame_filling f _ _).bind fun inner =>
    Filling.bind (.of_calm (setState_calmly f h.key _)) fun _ => .of_calm (.pure inner)

theorem registerEmbedding_filling (f : FrameId) (key : NodeKey) (location : Location)
    (text : String) : Filling (registerEmbedding f key location text) := by
  refine .of_get fun s => (nextId_filling f _).bind fun _ => ?_
  refine (requestRange_filling f _).bind fun _ => ?_
  refine Filling.bind (.of_calm (Calmly.reading.readEmbedding f location text)) fun link => ?_
  exact (requestDocument_filling f link location).bind fun _ =>
    .of_calm (setState_calmly f key (.embedding link))

theorem registerTerm_filling (f : FrameId) (key : NodeKey) (location : Location) (tag : String)
    (text : InlineText) : Filling (registerTerm f key location tag text) := by
  refine Filling.bind (.of_calm (Calmly.reading.evaluateTag f location tag)) fun evaluated => ?_
  refine .of_get fun s => (Filling.registry (Registry.registerTag_fills _ _ _ _ _)).bind fun _ => ?_
  exact Filling.bind (.of_calm (setState_calmly f key (.term none))) fun _ =>
    .of_calm (registerText_calmly f text)

theorem bindDefaults_filling (f : FrameId) (ps : List Parameter) (defaults : Table ValueId) :
    Filling (bindDefaults f ps defaults) := by
  induction ps generalizing defaults with
  | nil => exact .of_calm (.pure defaults)
  | cons p rest ih =>
    unfold bindDefaults
    split
    · exact ih defaults
    next body _ =>
      refine .get_bind fun s => ?_
      dsimp only
      rw [After.bind_iff, After.set_iff]
      have h : s.Fills { s with registry := (s.registry.addValue ⟨body, f⟩).2 } :=
        .of_registry (.of_eq rfl rfl)
      exact (ih _ _).mono fun _ _ h' => h.trans h'

theorem registerBlocks_filling (scope : ScopeId) (f : FrameId) (blocks : List Block) :
    Filling (registerBlocks scope f blocks) := by
  refine Filling.forM blocks fun b _ => (bindDefaults_filling f b.parameters []).bind fun _ => ?_
  exact (Filling.registry (Registry.registerBlock_fills _ _ _)).bind fun _ => .of_calm (.pure _)

theorem registerAllBlocks_filling (documents : Table DocumentInfo) :
    Filling (documents.forM fun (_, info) =>
      registerBlocks info.scope info.frame info.document.blocks) :=
  .forM _ fun _ _ => registerBlocks_filling _ _ _

theorem addValue_filling (body : InlineText) (f : FrameId) : Filling (addValue body f) :=
  .get_bind fun _ => .of_registry (.of_eq rfl rfl)

theorem setValue_filling (f : FrameId) (name : String) (value : ValueId) :
    Filling (setValue f name value) := fun s => .of_registry (.setValue s.registry _ name value)

theorem bindParameters_filling (caller inner : FrameId) (location : Location) (entry : BlockEntry)
    (arguments : Table InlineText) :
    Filling (bindParameters caller inner location entry arguments) := by
  refine Filling.forM _ fun p _ => ?_
  dsimp only
  split
  · exact (addValue_filling _ caller).bind fun value => setValue_filling inner p.name value
  · exact setValue_filling inner p.name _
  · exact Filling.bind (.of_calm .fail) fun value => setValue_filling inner p.name value

/-! ## Expansions -/

/-- The name that the scope of an expansion gets: its tag, or the one of the block with a number. -/
def expansionName (s : Resolution) (f : FrameId) (entry : BlockEntry) (tag : Option String) :
    String :=
  let base := scopeName entry.block.tag
  tag.getD (Registry.numbered base (s.registry.count (s.scopeOf f) base + 1))

/-- A scope is opened below the one of the frame, and a frame with that scope. -/
structure OpensScope (s : Resolution) (f : FrameId) (entry : BlockEntry) (tag : Option String)
    (inner : FrameId) (s' : Resolution) : Prop where
  opened : ∃ new r, s.registry.Opened (s.scopeOf f) (tag.getD (scopeName entry.block.tag))
    (expansionName s f entry tag) new r ∧ r.Fills s'.registry
  inner : ∃ frame, s'.frame? inner = some frame ∧ frame.scope = s.registry.freshScope
  frame : ∀ g frame, s.frame? g = some frame → ∃ frame', s'.frame? g = some frame' ∧
    frame'.scope = frame.scope

theorem expandBlock_opensScope {s : Resolution} {f : FrameId} {sc : Scope}
    (hσ : s.registry.scope? (s.scopeOf f) = some sc) (entry : BlockEntry) (tag : Option String)
    (location : Location) :
    After True (expandBlock f entry tag location) s (OpensScope s f entry tag) := by
  refine expandBlock_after fun given r r' calls hn hc => ?_
  obtain ⟨hgiven, -, hr⟩ := Registry.given_of_nextName hn
  obtain ⟨new, hopened⟩ := Registry.exists_opened hσ hn hc
  have hname : given = expansionName s f entry tag := by
    rw [hgiven, expansionName]
    cases tag <;> rfl
  have hfresh : r.freshScope = s.registry.freshScope := by simp [hr, Registry.modifyScope]
  refine (registerBlocks_filling _ _ entry.block.blocks _).mono fun _ s' hs' => ?_
  refine ⟨⟨new, r', hname ▸ hopened, hs'.registry⟩, ?_, fun g frame hg => ?_⟩
  · obtain ⟨frame', hf', hscope⟩ := hs'.frame s.freshFrame _
      ((frame?_push (s := s) _ s.freshFrame).trans (if_pos rfl))
    exact ⟨frame', hf', hscope.trans hfresh⟩
  · have hold : frame? { s with
        registry := r'
        frames := s.frames.push ⟨some f, s.documentOf f, ⟨r.scopes.size⟩, .block calls⟩ } g =
        some frame :=
      (frame?_push (s := s) _ g).trans ((if_neg (freshFrame_of_frame? hg)).trans hg)
    exact hs'.frame g frame hold

end Run

end Folio
