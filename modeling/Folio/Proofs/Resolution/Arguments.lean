import Folio.Proofs.Resolution.Hygiene
import Folio.Proofs.Resolution.Upkeep

/-!
# Expansions that know their arguments

The scope of an expansion is new, and knows the arguments of the block reference and the defaults
for what it leaves out (`Run.enterBlock_hygienic`). Apart from that, registration only notes names,
ids, ranges and requests (`Resolution.Notes`), and looks at texts. So it stays hygienic up to its
end (`Run.registerAll_hygienic`).
-/

namespace Folio

open Resolution

namespace Resolution

/-- Scopes know the same values, and neither scopes nor frames nor states are new. -/
structure Notes (s s' : Resolution) : Prop where
  registry : s.registry.Upholds s'.registry
  frame : ∀ f frame, s.frame? f = some frame → ∃ frame', s'.frame? f = some frame' ∧
    frame'.parent = frame.parent ∧ frame'.document = frame.document ∧ frame'.scope = frame.scope
  old : ∀ f frame', s'.frame? f = some frame' → ∃ frame, s.frame? f = some frame
  states : s'.states = s.states

variable {c : Collection} {s s' s'' : Resolution}

namespace Notes

theorem endures (h : s.Notes s') : s.Endures s' := ⟨h.registry.toRetains, h.frame⟩

theorem of_registry (s : Resolution) {r : Registry} (h : s.registry.Upholds r) :
    s.Notes { s with registry := r } where
  registry := h
  frame _ frame hf := ⟨frame, hf, rfl, rfl, rfl⟩
  old _ frame hf := ⟨frame, hf⟩
  states := rfl

theorem refl (s : Resolution) : s.Notes s := of_registry s (.refl s.registry)

theorem trans (h : s.Notes s') (h' : s'.Notes s'') : s.Notes s'' where
  registry := h.registry.trans h'.registry
  frame := (h.endures.trans h'.endures).frame
  old f frame'' hf := by
    obtain ⟨frame', hf'⟩ := h'.old f frame'' hf
    exact h.old f frame' hf'
  states := h'.states.trans h.states

theorem modifyKind (s : Resolution) (f : FrameId) (kind : FrameKind → FrameKind) :
    s.Notes (s.modifyKind f kind) where
  registry := .refl _
  frame g frame hg := by
    rw [frame?_modifyKind, hg]
    split
    · exact ⟨_, rfl, rfl, rfl, rfl⟩
    · exact ⟨frame, rfl, rfl, rfl, rfl⟩
  old g frame' hg := by
    rw [frame?_modifyKind] at hg
    split at hg
    · obtain ⟨frame, hframe, -⟩ := Option.map_eq_some_iff.1 hg
      exact ⟨frame, hframe⟩
    · exact ⟨frame', hg⟩
  states := rfl

theorem modifyInfo (s : Resolution) (d : String) (g : DocumentInfo → DocumentInfo) :
    s.Notes (s.modifyInfo d g) where
  registry := .refl _
  frame _ frame hf := ⟨frame, hf, rfl, rfl, rfl⟩
  old _ frame hf := ⟨frame, hf⟩
  states := rfl

end Notes

theorem Hygienic.notes (h : s.Hygienic c) (hn : s.Notes s') : s'.Hygienic c := by
  refine h.endures hn.endures (fun σ sc' hσ => .inl (hn.registry.old σ sc' hσ))
    (fun f frame' hf => .inl (hn.old f frame' hf)) fun σ key st hst => .inl ?_
  rwa [stateIn?, hn.states] at hst

/-- Nothing is known at first. -/
theorem Hygienic.start (c : Collection) : c.start.Hygienic c where
  rooted σ sc hσ := by simp [Collection.start, Registry.scope?] at hσ
  lends σ sc name v hσ := by simp [Collection.start, Registry.scope?] at hσ
  home f frame hf := by simp [Collection.start, frame?] at hf
  outermost f frame hf := by simp [Collection.start, frame?] at hf
  state σ key st hst := by simp [Collection.start, stateIn?] at hst

/-- A document is added. -/
theorem Hygienic.addDocument (h : s.Hygienic c) (path : String) (documents : Table DocumentInfo) :
    Hygienic c { s with
      registry := (s.registry.addDocument path).2
      frames := s.frames.push ⟨none, path, ⟨s.registry.scopes.size⟩, .document []⟩
      documents } := by
  set opened : Frame := ⟨none, path, ⟨s.registry.scopes.size⟩, .document []⟩
  have hpush := frame?_push (s := s) opened
  refine h.endures ⟨.addDocument s.registry path, fun f frame hf => ⟨frame, ?_, rfl, rfl, rfl⟩⟩
    (fun σ sc hσ => ?_) (fun f frame hf => ?_) fun _ _ _ hst => .inl hst
  · exact (hpush f).trans ((if_neg (freshFrame_of_frame? hf)).trans hf)
  · obtain hold | ⟨hparent, horigin, hvalues⟩ := Registry.addDocument_cases hσ
    · exact .inl ⟨sc, hold⟩
    · refine .inr ⟨fun _ => ⟨horigin, hvalues⟩, fun name v hv => ?_⟩
      rw [hvalues] at hv
      cases hv
  · replace hf := (hpush f).symm.trans hf
    split at hf
    · cases hf
      obtain ⟨sc, hσ, hparent, -⟩ := s.registry.exists_scope?_newScope "" path none none
      refine .inr ⟨⟨sc, hσ, fun _ hp => ?_⟩, fun _ => ⟨sc, hσ, hparent⟩⟩
      rw [hparent] at hp
      cases hp
    · exact .inl ⟨frame, hf⟩

end Resolution

/-! ## Labeled nodes, embeddings and terms -/

/-- The step stays hygienic, in a frame that is there, keeps the registry proper, and adds no values
and no blocks to it. -/
def Run.Clean {α : Type} (c : Collection) (f : FrameId) (m : Run α) : Prop :=
  ∀ s frame, s.Hygienic c → s.registry.Proper c → s.frame? f = some frame →
    After True m s fun _ s' => s'.Hygienic c ∧ s'.registry.Proper c ∧
      s.registry.Marks s'.registry ∧ ∃ frame', s'.frame? f = some frame'

namespace Run

variable {c : Collection} {f : FrameId} {α β : Type}

theorem Neat.clean {m : Run α} (h : Neat c f m) : Clean c f m := fun s frame hs hr hf =>
  (h s frame hs hr hf).mono fun _ _ ⟨hcalm, hs'⟩ =>
    ⟨hs', hcalm.registry ▸ hr, hcalm.registry ▸ .refl _, frame, hcalm.frame f frame hf⟩

namespace Clean

theorem bind {m : Run α} {k : α → Run β} (hm : Clean c f m) (hk : ∀ a, Clean c f (k a)) :
    Clean c f (m >>= k) := by
  intro s frame hs hr hf
  rw [After.bind_iff]
  refine (hm s frame hs hr hf).mono fun a s' ⟨hs', hr', hmarks, frame', hf'⟩ => ?_
  refine (hk a s' frame' hs' hr' hf').mono fun _ s'' ⟨hs'', hr'', hmarks', hf''⟩ => ?_
  exact ⟨hs'', hr'', hmarks.trans hmarks', hf''⟩

theorem of_get {k : Resolution → Run β} (hk : ∀ s, Clean c f (k s)) : Clean c f (get >>= k) := by
  intro s frame hs hr hf
  rw [After.bind_iff]
  exact hk s s frame hs hr hf

/-- Something is noted, but not in the registry. -/
theorem of_notes {m : Run α}
    (h : ∀ s, After True m s fun _ s' => s.Notes s' ∧ s'.registry = s.registry) :
    Clean c f m := by
  intro s frame hs hr hf
  refine (h s).mono fun _ s' ⟨hn, heq⟩ => ⟨hs.notes hn, heq ▸ hr, heq ▸ .refl _, ?_⟩
  obtain ⟨frame', hf', -⟩ := hn.frame f frame hf
  exact ⟨frame', hf'⟩

theorem registry {step : Registry.Step α}
    (hn : ∀ r, r.Proper c → Ends ResolveError.External step r fun _ r' => Registry.Names c r r')
    (hm : ∀ r, After True step r fun _ r' => r.Marks r') : Clean c f (Run.registry step) := by
  intro s frame hs hr hf
  rw [registry_iff]
  exact ((hm s.registry).and (hn s.registry hr).after).mono fun _ r' ⟨hmarks, hnames⟩ =>
    ⟨hs.notes (.of_registry s hmarks.upholds), hnames.proper hr, hmarks, frame, hf⟩

end Clean

theorem nextId_clean (f : FrameId) (typ : String) : Clean c f (nextId f typ) := by
  refine .of_notes fun s => ?_
  unfold nextId
  rw [After.bind_iff, After.get_iff]
  dsimp only
  split
  · rw [After.bind_iff, After.set_iff]
    exact ⟨.modifyKind s _ _, rfl⟩
  · rw [After.bind_iff, After.set_iff]
    exact ⟨.modifyKind s _ _, rfl⟩
  · exact ⟨.refl s, rfl⟩

theorem requestRange_notes (f : FrameId) (typ : String) (s : Resolution) :
    After True (requestRange f typ) s fun _ s' => s.Notes s' ∧ s'.registry = s.registry :=
  ⟨.modifyInfo s _ _, rfl⟩

theorem requestDocument_clean (f : FrameId) (link : Link) (location : Location) :
    Clean c f (requestDocument f link location) := by
  refine .of_notes fun s => ?_
  unfold requestDocument
  rw [After.bind_iff, After.get_iff]
  split
  · exact ⟨.refl s, rfl⟩
  · split
    · exact trivial
    · exact ⟨.modifyInfo s _ _, rfl⟩

theorem registerHeading_clean {h : Heading} (ht : c.HasText h.title) :
    Clean c f (registerHeading f h) := by
  rw [registerHeading_eq]
  refine .of_get fun s => (nextId_clean f _).bind fun ids => ?_
  refine (Neat.reading.headingTags f h).clean.bind fun tags => ?_
  unfold registerUnder
  refine (Clean.of_notes (requestRange_notes f _)).bind fun _ => .of_get fun s₁ => ?_
  refine (Clean.registry (fun r hr => Registry.registerEntry_ends hr _ rfl (by simp) _)
    (Registry.registerEntry_marks _ _ _ _)).bind fun entry => ?_
  refine (registerText_neat ht).clean.bind fun _ => ?_
  unfold subRangeFrame
  rw [bind_assoc]
  intro s frame hs hr hf
  rw [After.bind_iff, After.get_iff, scopeOf_eq hf, documentOf_eq hf, After.bind_iff, pushFrame_iff,
    After.bind_iff]
  set opened : Frame := ⟨some f, frame.document, frame.scope, _⟩
  have hpushed : Hygienic c { s with frames := s.frames.push opened } :=
    hs.push rfl (hs.home f frame hf)
  have hf' : frame? { s with frames := s.frames.push opened } f = some frame := by
    rw [frame?_push, if_neg (freshFrame_of_frame? hf), hf]
  exact ⟨hpushed.setState f h.key trivial, hr, .refl _, frame, hf'⟩

theorem registerEmbedding_clean (key : NodeKey) (location : Location) (written : String) :
    Clean c f (registerEmbedding f key location written) := by
  unfold registerEmbedding
  refine .of_get fun s => (nextId_clean f _).bind fun _ => ?_
  refine (Clean.of_notes (requestRange_notes f _)).bind fun _ => ?_
  refine (Neat.reading.readEmbedding f location written).clean.bind fun link => ?_
  exact (requestDocument_clean f link location).bind fun _ =>
    (setState_neat key (.embedding link) fun _ _ => trivial).clean

theorem registerTerm_clean (key : NodeKey) (location : Location) (tag : String)
    {content : InlineText} (ht : c.HasText content) :
    Clean c f (registerTerm f key location tag content) := by
  unfold registerTerm
  refine (Neat.reading.evaluateTag f location tag).clean.bind fun evaluated => ?_
  dsimp only
  refine .of_get fun s => ?_
  refine (Clean.registry (fun r hr => Registry.registerTag_ends _ termType _ _ _)
    (Registry.registerTag_marks _ _ _ _ _)).bind fun _ => ?_
  exact (setState_neat key (.term none) fun _ _ => trivial).clean.bind fun _ =>
    (registerText_neat ht).clean

/-! ## Blocks -/

theorem bindDefaults_notes (f : FrameId) (ps : List Parameter) (defaults : Table ValueId)
    (s : Resolution) : After True (bindDefaults f ps defaults) s
      fun _ s' => s.Notes s' ∧ s.registry.Marks s'.registry := by
  induction ps generalizing defaults s with
  | nil => exact ⟨.refl s, .refl s.registry⟩
  | cons p rest ih =>
    unfold bindDefaults
    split
    · exact ih defaults s
    next body hbody =>
      rw [After.bind_iff, After.get_iff]
      dsimp only
      rw [After.bind_iff, After.set_iff]
      have hmarks := Registry.Marks.addValue s.registry ⟨body, f⟩
      refine (ih _ _).mono fun _ _ h => ⟨Notes.trans ?_ h.1, hmarks.trans h.2⟩
      exact .of_registry s hmarks.upholds

theorem registerBlocks_notes (σ : ScopeId) (f : FrameId) (blocks : List Block) (s : Resolution) :
    After True (registerBlocks σ f blocks) s fun _ s' => s.Notes s' := by
  refine After.forM (I := fun s' => s.Notes s') (fun b _ s₁ h₁ => ?_) (.refl s)
  rw [After.bind_iff]
  refine (bindDefaults_notes f b.parameters [] s₁).mono fun defaults s₂ ⟨h₂, _⟩ => ?_
  rw [After.bind_iff, registry_iff]
  exact (Registry.registerBlock_upholds σ b.tag _ s₂.registry).mono fun _ _ h₃ =>
    (h₁.trans h₂).trans (.of_registry s₂ h₃)

end Run

/-! ## Expansions -/

namespace Resolution

/-- An expansion of a block was opened in the frame `f`, with a frame and a scope of its own. -/
structure Expands (s : Resolution) (f : FrameId) (entry : BlockEntry) (inner : FrameId)
    (σ : ScopeId) (sc : Scope) (s' : Resolution) : Prop where
  endures : s.Endures s'
  states : s'.states = s.states
  frame : ∃ fr, s'.frame? inner = some fr ∧ fr.parent = some f ∧ fr.document = s.documentOf f ∧
    fr.scope = σ
  scope : s'.registry.scope? σ = some sc
  place : sc.parent = some (s.scopeOf f) ∧ sc.origin = some entry.scope ∧
    sc.document = s.documentOf f
  fresh : s.registry.scope? σ = none
  scopes : ∀ τ sc', s'.registry.scope? τ = some sc' → τ = σ ∨ ∃ sc, s.registry.scope? τ = some sc
  frames : ∀ g fr', s'.frame? g = some fr' → g = inner ∨ ∃ fr, s.frame? g = some fr

variable {c : Collection} {s s' s'' : Resolution} {f inner : FrameId} {entry : BlockEntry}
  {σ : ScopeId} {sc : Scope}

namespace Expands

theorem notes (h : s.Expands f entry inner σ sc s') (hn : s'.Notes s'') :
    ∃ sc', sc'.values = sc.values ∧ s.Expands f entry inner σ sc' s'' := by
  obtain ⟨sc', hσ', hplace, hvalues⟩ := hn.registry.scope σ sc h.scope
  obtain ⟨fr, hfr, hp, hd, hs⟩ := h.frame
  obtain ⟨fr', hfr', hp', hd', hs'⟩ := hn.frame inner fr hfr
  refine ⟨sc', hvalues, h.endures.trans hn.endures, hn.states.trans h.states,
    ⟨fr', hfr', hp'.trans hp, hd'.trans hd, hs'.trans hs⟩, hσ', ?_, h.fresh, ?_, ?_⟩
  · rw [Scope.parent_eq_of_place hplace, Scope.origin_eq_of_place hplace,
      Scope.document_eq_of_place hplace]
    exact h.place
  · intro τ scτ hτ
    obtain ⟨scτ', hτ'⟩ := hn.registry.old τ scτ hτ
    exact h.scopes τ scτ' hτ'
  · intro g frg hg
    obtain ⟨frg', hg'⟩ := hn.old g frg hg
    exact h.frames g frg' hg'

/-- The expansion gets to know a value. -/
theorem setValue (h : s.Expands f entry inner σ sc s') (name : String) (v : ValueId) :
    s.Expands f entry inner σ { sc with values := (name, v) :: sc.values }
      { s' with registry := s'.registry.setValue σ name v } where
  endures.registry.scope τ sc₀ hτ := by
    obtain ⟨sc', hτ', hkeep⟩ := h.endures.registry.scope τ sc₀ hτ
    refine ⟨sc', ?_, hkeep⟩
    have hne : τ ≠ σ := by
      rintro rfl
      cases h.fresh.symm.trans hτ
    exact (Registry.scope?_modifyScope σ _ τ).trans ((if_neg hne).trans hτ')
  endures.registry.value := h.endures.registry.value
  endures.frame := h.endures.frame
  states := h.states
  frame := h.frame
  scope := by
    refine (Registry.scope?_modifyScope σ _ σ).trans ((if_pos rfl).trans ?_)
    rw [h.scope]
    rfl
  place := h.place
  fresh := h.fresh
  scopes τ sc' hτ := by
    by_cases heq : τ = σ
    · exact .inl heq
    · exact h.scopes τ sc' (((Registry.scope?_modifyScope σ _ τ).trans (if_neg heq)).symm.trans hτ)
  frames := h.frames

/-- Opening the expansion stays hygienic if its scope knows what it may know. -/
theorem hygienic (h : s.Expands f entry inner σ sc s') (hs : s.Hygienic c)
    (hlends : ∀ name v, sc.values.lookup name = some v → s'.Lends sc v) : s'.Hygienic c := by
  refine hs.endures h.endures (fun τ sc' hτ => ?_) (fun g fr' hg => ?_) fun τ key st hst => ?_
  · obtain rfl | hold := h.scopes τ sc' hτ
    · cases h.scope.symm.trans hτ
      refine .inr ⟨fun hnone => ?_, hlends⟩
      cases h.place.1.symm.trans hnone
    · exact .inl hold
  · obtain rfl | hold := h.frames g fr' hg
    · obtain ⟨fr, hfr, hparent, hdoc, hscope⟩ := h.frame
      cases hfr.symm.trans hg
      refine .inr ⟨⟨sc, hscope ▸ h.scope, fun _ _ => hdoc.trans h.place.2.2.symm⟩, fun hnone => ?_⟩
      cases hparent.symm.trans hnone
    · exact .inl hold
  · rw [stateIn?, h.states] at hst
    exact .inl hst

end Expands

/-- A scope and a frame are opened for an expansion. -/
theorem Expands.open (f : FrameId) (entry : BlockEntry) (calls : CallStack) {name : String}
    {r r' : Registry} (hup : s.registry.Upholds r)
    (hchild : (r.newScope name (s.documentOf f) (some (s.scopeOf f)) (some entry.scope)).2.Upholds
      r') : ∃ sc, sc.values = [] ∧ s.Expands f entry s.freshFrame ⟨r.scopes.size⟩ sc
        { s with
          registry := r'
          frames := s.frames.push ⟨some f, s.documentOf f, ⟨r.scopes.size⟩, .block calls⟩ } := by
  set opened : Frame := ⟨some f, s.documentOf f, ⟨r.scopes.size⟩, .block calls⟩ with hopened
  have hpush : ∀ g, frame? { s with registry := r', frames := s.frames.push opened } g =
      if g = s.freshFrame then some opened else s.frame? g := frame?_push (s := s) opened
  obtain ⟨sc, hσ, hparent, horigin, hdoc, hvalues⟩ := r.exists_scope?_newScope name
    (s.documentOf f) (some (s.scopeOf f)) (some entry.scope)
  obtain ⟨sc', hσ', hplace, hvalues'⟩ := hchild.scope _ sc hσ
  refine ⟨sc', hvalues'.trans hvalues, ⟨?_, fun g fr hg => ⟨fr, ?_, rfl, rfl, rfl⟩⟩, rfl,
    ⟨opened, (hpush _).trans (if_pos rfl), rfl, rfl, rfl⟩, hσ', ?_, ?_, fun τ scτ hτ => ?_,
    fun g fr hg => ?_⟩
  · exact (hup.toRetains.trans (.newScope ..)).trans hchild.toRetains
  · rw [hpush, if_neg (freshFrame_of_frame? hg), hg]
  · rw [Scope.parent_eq_of_place hplace, Scope.origin_eq_of_place hplace,
      Scope.document_eq_of_place hplace]
    exact ⟨hparent, horigin, hdoc⟩
  · cases hold : s.registry.scope? ⟨r.scopes.size⟩ with
    | none => rfl
    | some sc₀ =>
      obtain ⟨sc₁, hsc₁, -⟩ := hup.scope _ sc₀ hold
      exact absurd (Array.getElem?_eq_some_iff.1 hsc₁).1 (Nat.lt_irrefl _)
  · obtain ⟨sc₁, hsc₁⟩ := hchild.old τ scτ hτ
    obtain hr | ⟨heq, -⟩ := Registry.newScope_cases _ _ _ _ hsc₁
    · exact .inr (hup.old τ sc₁ hr)
    · exact .inl heq
  · rw [hpush] at hg
    by_cases heq : g = s.freshFrame
    · exact .inl heq
    · exact .inr ⟨fr, (if_neg heq).symm.trans hg⟩

end Resolution

namespace Run

variable {c : Collection} {s : Resolution} {f : FrameId} {frame : Frame}

theorem expandBlock_expands (f : FrameId) (entry : BlockEntry) (tag : Option String)
    (location : Location) (s : Resolution) :
    After True (expandBlock f entry tag location) s fun inner s' => ∃ σ sc,
      sc.values = [] ∧ s.Expands f entry inner σ sc s' := by
  refine expandBlock_after fun name r r' calls hn hc => ?_
  obtain ⟨sc, hvalues, hopen⟩ := Expands.open f entry calls (Registry.Marks.nextName hn).upholds
    (Registry.Marks.addChild hc).upholds
  refine (registerBlocks_notes _ _ _ _).mono fun _ s' hn => ?_
  obtain ⟨sc', hvalues', hexpands⟩ := hopen.notes hn
  exact ⟨_, sc', hvalues'.trans hvalues, hexpands⟩

/-- The parameters that are bound so far. -/
structure Granted (s : Resolution) (f : FrameId) (entry : BlockEntry) (arguments : Table InlineText)
    (inner : FrameId) (σ : ScopeId) (ps : List Parameter) (sc : Scope) (s' : Resolution) : Prop
    extends s.Expands f entry inner σ sc s' where
  lends : ∀ name v, sc.values.lookup name = some v → s'.Lends sc v
  argument : ∀ p ∈ ps, ∀ text, arguments.lookup p.name = some text → ∃ v,
    sc.values.lookup p.name = some v ∧ s'.registry.value? v = some ⟨text, f⟩

namespace Granted

variable {arguments : Table InlineText} {entry : BlockEntry} {inner : FrameId} {σ : ScopeId}
  {ps : List Parameter} {sc : Scope} {s' s'' : Resolution}

theorem notes (h : Granted s f entry arguments inner σ ps sc s') (hn : s'.Notes s'') :
    ∃ sc', Granted s f entry arguments inner σ ps sc' s'' := by
  obtain ⟨sc', hvalues, hexpands⟩ := h.toExpands.notes hn
  refine ⟨sc', hexpands, fun name v hv => ?_, fun p hp text hlookup => ?_⟩
  · refine (h.lends name v (hvalues ▸ hv)).mono hn.registry.value hn.frame ?_ ?_
    · exact hexpands.place.2.2.trans h.place.2.2.symm
    · exact hexpands.place.2.1.trans h.place.2.1.symm
  · obtain ⟨v, hv, hb⟩ := h.argument p hp text hlookup
    exact ⟨v, hvalues ▸ hv, hn.registry.value v _ hb⟩

/-- One more parameter is bound. -/
theorem setValue (h : Granted s f entry arguments inner σ ps sc s') {p : Parameter} {v : ValueId}
    (hlends : s'.Lends sc v) (hv : ∀ text, arguments.lookup p.name = some text →
      s'.registry.value? v = some ⟨text, f⟩) :
    After True (setValue inner p.name v) s' fun _ s'' =>
      ∃ sc', Granted s f entry arguments inner σ (ps ++ [p]) sc' s'' := by
  obtain ⟨fr, hfr, -, -, hscope⟩ := h.frame
  unfold Run.setValue
  rw [After.modify_iff, scopeOf_eq hfr, hscope]
  have hsame : ∀ w, s'.Lends sc w → Lends { s' with registry := s'.registry.setValue σ p.name v }
      { sc with values := (p.name, v) :: sc.values } w := fun w hw =>
    hw.mono (fun _ _ hb => hb) (fun _ fr hf => ⟨fr, hf, rfl, rfl, rfl⟩) rfl rfl
  refine ⟨_, h.toExpands.setValue p.name v, fun name w hw => ?_, fun q hq text hlookup => ?_⟩
  · rw [Table.lookup_cons] at hw
    split at hw
    · cases hw
      exact hsame v hlends
    · exact hsame w (h.lends name w hw)
  · rw [Table.lookup_cons]
    by_cases heq : q.name = p.name
    · rw [if_pos heq]
      exact ⟨v, rfl, hv text (heq ▸ hlookup)⟩
    · rw [if_neg heq]
      refine h.argument q ?_ text hlookup
      rcases List.mem_append.1 hq with hq | hq
      · exact hq
      · exact absurd (congrArg Parameter.name (List.mem_singleton.1 hq)) heq

end Granted

theorem bindParameters_bound {inner : FrameId} {entry : BlockEntry} {σ : ScopeId} {sc : Scope}
    {s₁ : Resolution} (hf : s.frame? f = some frame) (location : Location)
    (arguments : Table InlineText) (hd : Defaults entry.scope entry.defaults s)
    (h : s.Expands f entry inner σ sc s₁) (hnil : sc.values = []) :
    After True (bindParameters f inner location entry arguments) s₁ fun _ s' => ∃ sc,
      Granted s f entry arguments inner σ entry.block.parameters sc s' := by
  unfold bindParameters
  refine After.forM_split (J := fun pre _ s' => ∃ sc, Granted s f entry arguments inner σ pre sc s')
    (fun pre p post s₂ _ hpre => ?_) ⟨sc, h, ?_, ?_⟩
  · obtain ⟨sc₂, hpre⟩ := hpre
    dsimp only
    split
    next text harg =>
      unfold addValue
      rw [bind_assoc, After.bind_iff, After.get_iff]
      dsimp only
      rw [bind_assoc, After.bind_iff, After.set_iff, pure_bind]
      set s₃ : Resolution := { s₂ with registry := (s₂.registry.addValue ⟨text, f⟩).2 }
      have hn : s₂.Notes s₃ := .of_registry s₂ (Registry.Marks.addValue s₂.registry _).upholds
      obtain ⟨sc₃, hbound⟩ := hpre.notes hn
      have hnew : s₃.registry.value? (s₂.registry.addValue ⟨text, f⟩).1 = some ⟨text, f⟩ :=
        Array.getElem?_push_size
      obtain ⟨frame₃, hf₃, -, hdoc, -⟩ := hbound.endures.frame f frame hf
      refine hbound.setValue ⟨⟨text, f⟩, frame₃, hnew, hf₃, .inl ?_⟩ fun text' harg' => ?_
      · rw [hdoc, hbound.place.2.2, documentOf_eq hf]
      · cases harg.symm.trans harg'
        exact hnew
    next v harg hdefault =>
      obtain ⟨binding, g, hb, hg, hscope⟩ := hd _ v hdefault
      obtain ⟨g', hg', -, -, hscope'⟩ := hpre.endures.frame _ g hg
      rw [pure_bind]
      refine hpre.setValue ⟨binding, g', hpre.endures.registry.value v binding hb, hg', .inr ?_⟩
        fun text harg' => ?_
      · rw [hscope', hscope, hpre.place.2.1]
      · cases harg.symm.trans harg'
    · exact trivial
  · intro name v hv
    rw [hnil] at hv
    cases hv
  · exact fun p hp => absurd hp List.not_mem_nil

/-- Every argument of a block reference that is expanded belongs to a parameter, so it is bound. -/
theorem enterBlock_hygienic (hs : s.Hygienic c) (hp : s.Proper c) (hf : s.frame? f = some frame)
    (location : Location) {b : BlockId} {entry : BlockEntry}
    (hb : s.registry.block? b = some entry) (tag : Option String) {key : NodeKey}
    {arguments : Table InlineText} (hcall : c.HasCall key arguments) :
    After True (enterBlock f location entry tag arguments) s fun result s' =>
      (s'.setState f key (.expansion result.1 result.2)).Hygienic c := by
  unfold enterBlock
  cases hknown : arguments.keys.find? fun name => !entry.block.parameters.any (·.name = name) with
  | some name => exact trivial
  | none =>
    dsimp only
    rw [After.bind_iff]
    refine (Neat.reading.expansionTag f location tag s frame hs hp.registry hf).mono
      fun tag s₁ ⟨hcalm, hs₁⟩ => ?_
    have hf₁ : s₁.frame? f = some frame := hcalm.frame f frame hf
    have hd : Defaults entry.scope entry.defaults s₁ := by
      intro name v hv
      obtain ⟨binding, g, hbinding, hg, hscope⟩ := hp.default b entry hb name v hv
      exact ⟨binding, g, hcalm.registry ▸ hbinding, hcalm.frame _ g hg, hscope⟩
    rw [After.bind_iff]
    refine (expandBlock_expands f entry tag location s₁).mono fun inner s₂ ⟨σ, sc, hnil, h⟩ => ?_
    rw [After.bind_iff]
    refine (bindParameters_bound hf₁ location arguments hd h hnil).mono
      fun _ s₃ ⟨sc₃, hbound⟩ => ?_
    rw [After.pure_iff]
    refine (hbound.hygienic hs₁ hbound.lends).setState f key ?_
    obtain ⟨fr, hfr, hparent, -, hscope⟩ := hbound.frame
    obtain ⟨outer, houter, -, hdoc, -⟩ := hbound.endures.frame f frame hf₁
    refine ⟨f, outer, fr, sc₃, arguments, hcall, houter, hfr, hparent, hscope ▸ hbound.scope, ?_, ?_,
      fun name text hlookup => ?_⟩
    · rw [hbound.place.1]
      rfl
    · rw [hdoc, hbound.place.2.2, documentOf_eq hf₁]
    · have hmem : name ∈ arguments.keys := List.mem_map.2 ⟨_, Table.mem_of_lookup hlookup, rfl⟩
      obtain ⟨p, hparam, rfl⟩ : ∃ p ∈ entry.block.parameters, p.name = name := by
        simpa using List.find?_eq_none.1 hknown name hmem
      exact hbound.argument p hparam text hlookup

theorem openExpansion_hygienic (hs : s.Hygienic c) (hp : s.Proper c) (hf : s.frame? f = some frame)
    (location : Location) (block : String) (tag : Option String) {key : NodeKey}
    {arguments : Table InlineText} (hcall : c.HasCall key arguments) :
    After True (openExpansion f location block tag arguments) s fun result s' =>
      (s'.setState f key (.expansion result.1 result.2)).Hygienic c := by
  unfold openExpansion
  rw [After.bind_iff]
  refine (readLink_safely hp f location block).ends.after.mono ?_
  rintro link s' ⟨-, -, rfl, -⟩
  rw [After.bind_iff, After.get_iff, After.bind_iff, orFail_iff]
  refine ⟨fun entry hentry => ?_, fun _ => trivial⟩
  obtain ⟨b, -, hb⟩ := Option.bind_eq_some_iff.1 hentry
  exact enterBlock_hygienic hs hp hf location hb tag hcall

/-! ## Documents -/

theorem addDocument_hygienic (hs : s.Hygienic c) (d : Document) :
    After True (addDocument d) s fun _ s' => s'.Hygienic c := hs.addDocument d.path _

/-- Registration stays hygienic. It also keeps what holds of the registry if expansions and the blocks
of documents keep it, and if it does not depend on names. -/
theorem Upkeep.hygienic {P : Registry → Prop} (hmarks : ∀ {r r'}, P r → r.Marks r' → P r')
    (hexpansion : ∀ {s f frame}, s.Hygienic c → s.Proper c → s.frame? f = some frame →
      P s.registry → ∀ location block tag arguments,
        After True (openExpansion f location block tag arguments) s fun _ s' => P s'.registry)
    (hblocks : ∀ {s f frame}, s.Hygienic c → s.frame? f = some frame → frame.parent = none →
      P s.registry → ∀ blocks,
        After True (registerBlocks frame.scope f blocks) s fun _ s' => P s'.registry) :
    Upkeep c fun s => s.Hygienic c ∧ P s.registry where
  text := by
    intro _ s f frame content h hs
    have ht : c.HasText content := h.texts _ (by simp [Node.textsAll, Node.texts])
    exact ((registerText_neat ht).clean s frame hs.1 h.proper.registry h.opened).mono
      fun _ _ h' => ⟨h'.1, hmarks hs.2 h'.2.2.1⟩
  heading := by
    intro _ s f frame heading body h hs
    have ht : c.HasText heading.title := h.texts _ (by simp [Node.textsAll, Node.texts])
    exact (registerHeading_clean ht s frame hs.1 h.proper.registry h.opened).mono
      fun _ _ h' => ⟨h'.1, hmarks hs.2 h'.2.2.1⟩
  embedding h hs :=
    (registerEmbedding_clean _ _ _ _ _ hs.1 h.proper.registry h.opened).mono
      fun _ _ h' => ⟨h'.1, hmarks hs.2 h'.2.2.1⟩
  expansion h hcall hs :=
    ((openExpansion_hygienic hs.1 h.proper h.opened _ _ _ hcall).and
      (hexpansion hs.1 h.proper h.opened hs.2 _ _ _ _)).mono fun _ _ h' => h'
  term := by
    intro _ s f frame key location tag content h hs
    have ht : c.HasText content := h.texts _ (by simp [Node.textsAll, Node.texts])
    exact (registerTerm_clean key location tag ht s frame hs.1 h.proper.registry h.opened).mono
      fun _ _ h' => ⟨h'.1, hmarks hs.2 h'.2.2.1⟩
  blocks _ hf hparent _ hs :=
    ((registerBlocks_notes _ _ _ _).and (hblocks hs.1 hf hparent hs.2 _)).mono
      fun _ _ h' => ⟨hs.1.notes h'.1, h'.2⟩
  range f typ hs :=
    (requestRange_notes f typ _).mono fun _ _ hn => ⟨hs.1.notes hn.1, hn.2 ▸ hs.2⟩

/-- Registration is hygienic. -/
theorem registerAll_hygienic (hc : c.Described) :
    After True (registerAll (c.documents.map Prod.snd)) c.start fun _ s => s.Hygienic c := by
  have hu : Upkeep c fun s => s.Hygienic c ∧ True :=
    Upkeep.hygienic (P := fun _ => True) (fun _ _ => trivial)
      (fun _ _ _ _ _ _ _ _ => .trivial fun _ _ _ => trivial)
      fun _ _ _ _ _ => .trivial fun _ _ _ => trivial
  refine (hu.registerAll hc (.forM (fun d _ s hs => ?_) ⟨.start c, trivial⟩)).mono fun _ _ h => h.1
  exact (addDocument_hygienic hs.1 d).mono fun _ _ h => ⟨h, trivial⟩

end Run

end Folio
