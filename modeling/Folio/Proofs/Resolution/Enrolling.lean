import Folio.Proofs.Resolution.Calm
import Folio.Proofs.Resolution.Catalog
import Folio.Proofs.Scope.Synced

/-!
# Registration as operations on the registry

Registration changes the registry by operations that succeed, in places that are there: a frame in
which nodes are registered has a scope of its document (`Resolution.Housed`). So the registry of
documents that are registered is one that is reached (`Collection.Described.registerAll_enrolls`).
-/

namespace Folio

open Resolution

namespace Resolution

/-- The registry is changed by operations only. Frames keep their places, and documents their
scopes. -/
structure Enrolls (K : Stock) (s s' : Resolution) : Prop where
  moves : Registry.Moves s.registry s'.registry
  frame : ∀ f frame, s.frame? f = some frame → ∃ frame', s'.frame? f = some frame' ∧
    frame.Alike frame'
  infoScope : ∀ d, (s'.info? d).map DocumentInfo.scope = (s.info? d).map DocumentInfo.scope
  block : ∀ b e, s'.registry.block? b = some e →
    s.registry.block? b = some e ∨ e.block.Fits K

/-- The registry is reached, and its blocks ask no questions. -/
structure Founded (K : Stock) (s : Resolution) : Prop where
  reached : s.registry.Reached
  block : ∀ b e, s.registry.block? b = some e → e.block.Fits K

/-- A frame has a scope of its document. -/
def Housed (s : Resolution) (f : FrameId) : Prop :=
  ∃ frame sc, s.frame? f = some frame ∧ s.registry.scope? frame.scope = some sc ∧
    sc.document = frame.document

variable {K : Stock} {s s' s'' : Resolution} {f : FrameId}

theorem Founded.synced (h : s.Founded K) : s.registry.Synced := h.reached.synced

namespace Enrolls

theorem refl (s : Resolution) : s.Enrolls K s :=
  ⟨.refl, fun _ frame h => ⟨frame, h, .refl frame⟩, fun _ => rfl, fun _ _ h => .inl h⟩

theorem trans (h : s.Enrolls K s') (h' : s'.Enrolls K s'') : s.Enrolls K s'' where
  moves := h.moves.trans h'.moves
  frame f frame hf := by
    obtain ⟨frame', hf', ha⟩ := h.frame f frame hf
    obtain ⟨frame'', hf'', ha'⟩ := h'.frame f frame' hf'
    exact ⟨frame'', hf'', ha.trans ha'⟩
  infoScope d := (h'.infoScope d).trans (h.infoScope d)
  block b e he := (h'.block b e he).elim (h.block b e) .inr

theorem of_calm (h : s.Calm s') : s.Enrolls K s' where
  moves := by rw [h.registry]
  frame f frame hf := ⟨frame, h.frame f frame hf, .refl frame⟩
  infoScope d := by rw [info?, info?, h.documents]
  block b e he := .inl (by rwa [h.registry] at he)

theorem push (s : Resolution) (frame : Frame) :
    s.Enrolls K { s with frames := s.frames.push frame } where
  moves := .refl
  frame f fr hf := ⟨fr, by rw [frame?_push, if_neg (freshFrame_of_frame? hf), hf], .refl fr⟩
  infoScope _ := rfl
  block _ _ h := .inl h

theorem founded (h : s.Enrolls K s') (hs : s.Founded K) : s'.Founded K where
  reached := hs.reached.moves h.moves
  block b e he := (h.block b e he).elim (hs.block b e) id

/-- Scopes keep their places, so frames have them still. -/
theorem housed (h : s.Enrolls K s') (hs : s.Founded K) (hf : s.Housed f) : s'.Housed f := by
  obtain ⟨frame, sc, hframe, hsc, hd⟩ := hf
  obtain ⟨frame', hframe', ha⟩ := h.frame f frame hframe
  obtain ⟨sc', hsc', hplace⟩ := (h.moves.stays hs.synced).scope _ sc hsc
  exact ⟨frame', sc', hframe', ha.2.2.1 ▸ hsc', (congrArg Scope.document hplace).trans
    (hd.trans ha.2.1.symm)⟩

/-- An operation on the registry that brings no blocks but those of documents. -/
theorem of_move {r : Registry} (h : Registry.Move s.registry r)
    (hb : ∀ b e, r.block? b = some e → s.registry.block? b = some e ∨ e.block.Fits K) :
    s.Enrolls K { s with registry := r } where
  moves := .single h
  frame _ frame hf := ⟨frame, hf, .refl frame⟩
  infoScope _ := rfl
  block := hb

theorem modifyInfo (s : Resolution) (d : String) {change : DocumentInfo → DocumentInfo}
    (hc : ∀ info, (change info).scope = info.scope) : s.Enrolls K (s.modifyInfo d change) where
  moves := .refl
  frame _ frame hf := ⟨frame, hf, .refl frame⟩
  infoScope e := by
    rw [info?_modifyInfo]
    split
    · rw [Option.map_map]
      exact congrArg (Option.map · (s.info? e)) (funext hc)
    · rfl
  block _ _ h := .inl h

theorem modifyKind (s : Resolution) (f : FrameId) {kind : FrameKind → FrameKind}
    (hk : ∀ frame, s.frame? f = some frame → frame.kind.Alike (kind frame.kind)) :
    s.Enrolls K (s.modifyKind f kind) where
  moves := .refl
  frame g frame hg := by
    rw [frame?_modifyKind, hg]
    split
    next heq => exact ⟨_, rfl, rfl, rfl, rfl, hk frame (heq ▸ hg)⟩
    · exact ⟨frame, rfl, .refl frame⟩
  infoScope _ := rfl
  block _ _ h := .inl h

end Enrolls

end Resolution

/-- The step, in a frame that is housed, changes the registry by operations only. -/
def Run.Enrolling {α : Type} (K : Stock) (f : FrameId) (m : Run α) : Prop :=
  ∀ s, s.Founded K → s.Housed f → After True m s fun _ s' => s.Enrolls K s'

namespace Run

variable {K : Stock} {α β : Type} {f : FrameId}

namespace Enrolling

theorem of_calm {m : Run α} (h : Calmly m) : Enrolling K f m :=
  fun s _ _ => (h s).mono fun _ _ h => .of_calm h

theorem bind {m : Run α} {k : α → Run β} (hm : Enrolling K f m) (hk : ∀ a, Enrolling K f (k a)) :
    Enrolling K f (m >>= k) := by
  intro s hs hf
  rw [After.bind_iff]
  refine (hm s hs hf).mono fun a s' h => ?_
  exact (hk a s' (h.founded hs) (h.housed hs hf)).mono fun _ _ h' => h.trans h'

theorem get_bind {k : Resolution → Run β} (hk : ∀ s, s.Founded K → s.Housed f →
    After True (k s) s fun _ s' => s.Enrolls K s') : Enrolling K f (get >>= k) := by
  intro s hs hf
  rw [After.bind_iff]
  exact hk s hs hf

theorem of_get {k : Resolution → Run β} (hk : ∀ s, Enrolling K f (k s)) :
    Enrolling K f (get >>= k) := get_bind fun s => hk s s

theorem forM {step : α → Run PUnit} (xs : List α) (hx : ∀ x ∈ xs, Enrolling K f (step x)) :
    Enrolling K f (xs.forM step) := by
  induction xs with
  | nil => exact .of_calm (.pure PUnit.unit)
  | cons x xs ih =>
    change Enrolling K f (step x >>= fun _ => xs.forM step)
    exact (hx x (by simp)).bind fun _ => ih fun y hy => hx y (by simp [hy])

end Enrolling

theorem nextId_enrolling (typ : String) : Enrolling K f (nextId f typ) := by
  refine .get_bind fun s _ _ => ?_
  dsimp only
  split
  next owner ids parent document scope h =>
    rw [After.bind_iff, After.set_iff]
    refine .modifyKind s owner fun frame hf => ?_
    cases (countingFrame?_eq_some h).1.symm.trans hf
    trivial
  next owner t ids range parent document scope h =>
    rw [After.bind_iff, After.set_iff]
    refine .modifyKind s owner fun frame hf => ?_
    cases (countingFrame?_eq_some h).1.symm.trans hf
    exact rfl
  · exact .refl s

theorem requestRange_enrolling (typ : String) : Enrolling K f (requestRange f typ) := by
  refine fun s _ _ => .modifyInfo s _ fun info => ?_
  split <;> rfl

theorem requestDocument_enrolling (link : Link) (location : Location) :
    Enrolling K f (requestDocument f link location) := by
  refine .get_bind fun s _ _ => ?_
  split
  · exact .refl s
  · split
    · exact trivial
    · exact .modifyInfo s _ fun _ => rfl

/-- A step of registration that is an operation. -/
theorem registry_after {step : Registry.Step α} {s : Resolution}
    (hm : ∀ a r, step s.registry = .ok a r → Registry.Move s.registry r)
    (hb : ∀ a r, step s.registry = .ok a r → ∀ b e, r.block? b = some e →
      s.registry.block? b = some e ∨ e.block.Fits K) :
    After True (Run.registry step) s fun _ s' => s.Enrolls K s' := by
  rw [registry_iff]
  exact After.trivial fun a r h => .of_move (hm a r h) (hb a r h)

theorem headingTags_ne_empty (f : FrameId) (h : Heading) (s : Resolution) :
    After True (headingTags f h) s fun tags _ => ∀ t ∈ tags.1, t ≠ "" := by
  unfold headingTags
  split
  · simp [After, Pure.pure, EStateM.pure]
  · rw [After.bind_iff]
    refine After.trivial fun tag s' _ => ?_
    obtain ⟨tag, explicit⟩ := tag
    rw [After.pure_iff]
    split
    · simp
    next hne => simpa using hne

theorem registerEntry_after {s : Resolution} (hf : s.Housed f) (id : LabelId)
    (location : Location) {tags : List String} (ht : ∀ t ∈ tags, t ≠ "") (explicit : Bool) :
    After True (Run.registry (Registry.registerEntry (s.scopeOf f)
      { id, document := s.documentOf f, location } (tags ++ [id.text]) explicit)) s
      fun _ s' => s.Enrolls K s' := by
  obtain ⟨frame, sc, hframe, hsc, hd⟩ := hf
  refine registry_after (fun i r h => .entry (scopeOf_eq hframe ▸ hsc)
    ((documentOf_eq hframe).trans hd.symm) (fun t hmem => ?_) h) fun i r h b e hb => ?_
  · rcases List.mem_append.1 hmem with hmem | hmem
    · exact ht t hmem
    · rw [List.mem_singleton.1 hmem]
      simp [LabelId.text]
  · exact ((Registry.registerEntry_spec (K := K) _ _ _ _ _).of_ok h).block b e hb

/-- The frame inside a labeled node has the scope of the one outside. -/
theorem subRangeFrame_after {s : Resolution} (hf : s.Housed f) (typ : String) (ids : Ordinals) :
    After True (subRangeFrame f typ ids) s fun inner s' => s.Enrolls K s' ∧ s'.Housed inner := by
  obtain ⟨frame, sc, hframe, hsc, hd⟩ := hf
  unfold subRangeFrame
  rw [After.bind_iff, After.get_iff, pushFrame_iff]
  refine ⟨.push s _, _, sc, (frame?_push (s := s) _ _).trans (if_pos rfl), ?_, ?_⟩
  · rw [scopeOf_eq hframe]
    exact hsc
  · exact hd.trans (documentOf_eq hframe).symm

theorem registerUnder_enrolls {s : Resolution} (hs : s.Founded K) (hf : s.Housed f) (h : Heading)
    (id : LabelId) {tags : List String × Bool} (ht : ∀ t ∈ tags.1, t ≠ "") :
    After True (registerUnder f h id tags) s fun inner s' => s.Enrolls K s' ∧ s'.Housed inner := by
  unfold registerUnder
  rw [After.bind_iff]
  refine (requestRange_enrolling id.typ s hs hf).mono fun _ s₁ h₁ => ?_
  have hf₁ := h₁.housed hs hf
  rw [After.bind_iff, After.get_iff]
  dsimp only
  rw [After.bind_iff]
  refine (registerEntry_after (K := K) hf₁ id h.location ht tags.2).mono fun entry s₂ h₂ => ?_
  have h₂ := h₁.trans h₂
  rw [After.bind_iff]
  refine (registerText_calmly f h.title s₂).mono fun _ s₃ h₃ => ?_
  have h₃ := h₂.trans (.of_calm h₃)
  rw [After.bind_iff]
  refine (subRangeFrame_after (K := K) (h₃.housed hs hf) id.typ (.below id)).mono
    fun inner s₄ ⟨h₄, hi⟩ => ?_
  have h₄ : s.Enrolls K s₄ := h₃.trans h₄
  rw [After.bind_iff]
  refine (setState_calmly f h.key (.labeled entry inner) s₄).mono fun _ s₅ h₅ => ?_
  have h₅ : s₄.Enrolls K s₅ := .of_calm h₅
  exact ⟨h₄.trans h₅, h₅.housed (h₄.founded hs) hi⟩

theorem registerHeading_enrolls {s : Resolution} (hs : s.Founded K) (hf : s.Housed f)
    (h : Heading) :
    After True (registerHeading f h) s fun inner s' => s.Enrolls K s' ∧ s'.Housed inner := by
  rw [registerHeading_eq, After.bind_iff, After.get_iff]
  dsimp only
  rw [After.bind_iff]
  refine (nextId_enrolling _ s hs hf).mono fun ids s₁ h₁ => ?_
  rw [After.bind_iff]
  refine ((Calmly.reading.headingTags f h s₁).and (headingTags_ne_empty f h s₁)).mono
    fun tags s₂ ⟨h₂, ht⟩ => ?_
  have h₂ : s.Enrolls K s₂ := h₁.trans (.of_calm h₂)
  refine (registerUnder_enrolls (h₂.founded hs) (h₂.housed hs hf) h _ ht).mono ?_
  exact fun inner s' ⟨h₃, hi⟩ => ⟨h₂.trans h₃, hi⟩

theorem registerEmbedding_enrolling (key : NodeKey) (location : Location) (text : String) :
    Enrolling K f (registerEmbedding f key location text) := by
  refine .of_get fun s => (nextId_enrolling _).bind fun _ => ?_
  refine (requestRange_enrolling _).bind fun _ => ?_
  refine Enrolling.bind (.of_calm (Calmly.reading.readEmbedding f location text)) fun link => ?_
  exact (requestDocument_enrolling link location).bind fun _ =>
    .of_calm (setState_calmly f key (.embedding link))

theorem registerTerm_enrolling (key : NodeKey) (location : Location) (tag : String)
    (text : InlineText) : Enrolling K f (registerTerm f key location tag text) := by
  refine Enrolling.bind (.of_calm (Calmly.reading.evaluateTag f location tag)) fun evaluated => ?_
  obtain ⟨tag, explicit⟩ := evaluated
  refine .get_bind fun s hs hf => ?_
  rw [After.bind_iff]
  refine (registry_after (K := K) (fun _ r h => .tag h) fun _ r h b e hb => ?_).mono
    fun _ s₁ h₁ => ?_
  · exact ((Registry.registerTag_quietly (K := K) _ termType tag _ _ s.registry).of_ok h).block
      b e hb
  · have hrest : Enrolling K f (do setState f key (.term none); registerText f text) :=
      Enrolling.bind (.of_calm (setState_calmly f key (.term none))) fun _ =>
        .of_calm (registerText_calmly f text)
    exact (hrest s₁ (h₁.founded hs) (h₁.housed hs hf)).mono fun _ _ h => h₁.trans h

/-! ## Expansions -/

theorem bindDefaults_enrolling (g : FrameId) (ps : List Parameter) (defaults : Table ValueId) :
    Enrolling K f (bindDefaults g ps defaults) := by
  induction ps generalizing defaults with
  | nil => exact .of_calm (.pure defaults)
  | cons p rest ih =>
    unfold bindDefaults
    split
    · exact ih defaults
    next body _ =>
      refine .get_bind fun s hs hf => ?_
      dsimp only
      rw [After.bind_iff, After.set_iff]
      have h₁ : s.Enrolls K { s with registry := (s.registry.addValue ⟨body, g⟩).2 } :=
        .of_move (.value _) fun _ _ h => .inl h
      exact (ih _ _ (h₁.founded hs) (h₁.housed hs hf)).mono fun _ _ h => h₁.trans h

/-- Blocks are registered in the scope of the frame. -/
theorem registerBlocks_enrolling (σ : ScopeId) (blocks : List Block) (hb : ∀ b ∈ blocks, b.Fits K)
    {s : Resolution} (hs : s.Founded K) (hf : s.Housed f) (hσ : s.scopeOf f = σ) :
    After True (registerBlocks σ f blocks) s fun _ s' => s.Enrolls K s' := by
  unfold registerBlocks
  refine After.forM (I := fun s' => s.Enrolls K s') (fun block hmem s₁ h₁ => ?_) (.refl s)
  have hs₁ := h₁.founded hs
  have hf₁ := h₁.housed hs hf
  rw [After.bind_iff]
  refine (bindDefaults_enrolling f block.parameters [] s₁ hs₁ hf₁).mono fun defaults s₂ h₂ => ?_
  have h₂ := h₁.trans h₂
  obtain ⟨frame, sc, hframe, hsc, -⟩ := h₂.housed hs hf
  have hscope : frame.scope = σ := by
    obtain ⟨frame₀, -, hframe₀, -⟩ := hf
    obtain ⟨frame', hframe', ha⟩ := h₂.frame f frame₀ hframe₀
    cases hframe.symm.trans hframe'
    rw [ha.2.2.1, ← scopeOf_eq hframe₀, hσ]
  rw [After.bind_iff]
  refine (registry_after (fun i r h => .block (e := ⟨block, σ, defaults⟩) ?_ h)
    fun i r h b e he => ?_).mono fun _ s₃ h₃ => h₂.trans h₃
  · change (s₂.registry.scope? σ).isSome = true
    rw [← hscope, hsc]
    rfl
  · exact ((Registry.registerBlock_quietly (K := K) σ block.tag (e := ⟨block, σ, defaults⟩)
      (hb block hmem) s₂.registry).of_ok h).block b e he

/-- The scope that is opened for an expansion lies in the document of the frame. -/
theorem openScope_enrolls {s : Resolution} (hs : s.Founded K) (hf : s.Housed f)
    {origin : ScopeId} (ho : (s.registry.scope? origin).isSome) {name given : String}
    {extend : Bool} {r r' : Registry}
    (hn : s.registry.nextName (s.scopeOf f) name extend = .ok (given, r))
    (hc : (r.newScope given (s.documentOf f) (some (s.scopeOf f)) (some origin)).2.addChild
      (s.scopeOf f) given r.freshScope = .ok r') :
    s.Enrolls K { s with registry := r' } ∧
      ∃ new, r'.scope? r.freshScope = some new ∧ new.document = s.documentOf f := by
  obtain ⟨frame, sc, hframe, hsc, hd⟩ := hf
  have h₁ : s.Enrolls K { s with registry := r } :=
    .of_move (.name hn) fun b e he => (Registry.Quiet.nextName (K := K) hn).block b e he
  -- the scope of the frame and that of the block are still there
  obtain ⟨outer, hout, hplace⟩ := (h₁.moves.stays hs.synced).scope _ sc hsc
  have houter : outer.document = s.documentOf f := by
    rw [documentOf_eq hframe, ← hd]
    exact Scope.document_eq_of_place hplace
  have horigin : (r.scope? origin).isSome := by
    obtain ⟨osc, hosc⟩ := Option.isSome_iff_exists.1 ho
    obtain ⟨osc', hosc', -⟩ := (h₁.moves.stays hs.synced).scope _ osc hosc
    exact Option.isSome_iff_exists.2 ⟨osc', hosc'⟩
  have hmove := Registry.Move.scope given (scopeOf_eq hframe ▸ hout) horigin
  rw [houter] at hmove
  obtain ⟨new, hgains, -, -, hdocument, -⟩ := r.newScope_gains given (s.documentOf f)
    (some (s.scopeOf f)) (some origin)
  generalize (r.newScope given (s.documentOf f) (some (s.scopeOf f)) (some origin)).2 =
    opened at hmove hgains hc
  have h₂ : s.Enrolls K { s with registry := opened } := h₁.trans
    (.of_move (s := { s with registry := r }) hmove fun b e he => .inl (hgains.block? b ▸ he))
  have h₃ : s.Enrolls K { s with registry := r' } := h₂.trans
    (.of_move (s := { s with registry := opened }) (.child hc)
      fun b e he => (Registry.Quiet.addChild (K := K) hc).block b e he)
  obtain ⟨new', hnew', hplace'⟩ := (Registry.Aside.addChild hc).stays.scope _ new hgains.fresh
  exact ⟨h₃, new', hnew', (Scope.document_eq_of_place hplace').trans hdocument⟩

/-- An expansion opens a scope below that of the frame, and a frame that is housed in it. -/
theorem expandBlock_enrolls {s : Resolution} (hs : s.Founded K) (hf : s.Housed f)
    {entry : BlockEntry} (he : ∃ b, s.registry.block? b = some entry) (tag : Option String)
    (location : Location) : After True (expandBlock f entry tag location) s fun inner s' =>
      s.Enrolls K s' ∧ s'.Housed inner := by
  obtain ⟨b, hb⟩ := he
  have hfits := hs.block b entry hb
  refine expandBlock_after fun name r r' calls hn hc => ?_
  obtain ⟨h₁, new, hnew, hdocument⟩ :=
    openScope_enrolls hs hf (hs.synced.block b entry hb) hn hc
  set pushed : Frame := ⟨some f, s.documentOf f, r.freshScope, .block calls⟩ with hpushed
  set s₂ : Resolution := { s with registry := r', frames := s.frames.push pushed } with hs₂
  have h₂ : s.Enrolls K s₂ := h₁.trans (.push { s with registry := r' } pushed)
  have hinner : s₂.frame? s.freshFrame = some pushed :=
    (frame?_push (s := s) pushed s.freshFrame).trans (if_pos rfl)
  have hhoused : s₂.Housed s.freshFrame := ⟨pushed, new, hinner, hnew, hdocument⟩
  refine (registerBlocks_enrolling r.freshScope entry.block.blocks
    (fun b hb => hfits.blocks hb) (h₂.founded hs) hhoused (scopeOf_eq hinner)).mono ?_
  exact fun _ s₃ h₃ => ⟨h₂.trans h₃, h₃.housed (h₂.founded hs) hhoused⟩

theorem bindParameters_enrolling (caller inner : FrameId) (location : Location)
    (entry : BlockEntry) (arguments : Table InlineText) :
    Enrolling K f (bindParameters caller inner location entry arguments) := by
  have hset : ∀ name value, Enrolling K f (setValue inner name value) :=
    fun name value s _ _ => .of_move (.setValue _ name value) fun _ _ h => .inl h
  refine Enrolling.forM _ fun p _ => ?_
  dsimp only
  split
  · refine Enrolling.bind (.get_bind fun s _ _ => ?_) fun value => hset p.name value
    exact .of_move (.value _) fun _ _ h => .inl h
  · exact hset p.name _
  · exact Enrolling.bind (.of_calm .fail) fun value => hset p.name value

theorem openExpansion_enrolls {s : Resolution} (hs : s.Founded K) (hf : s.Housed f)
    (location : Location) (block : String) (tag : Option String) (arguments : Table InlineText) :
    After True (openExpansion f location block tag arguments) s fun result s' =>
      s.Enrolls K s' ∧ s'.Housed result.1 ∧ Node.Fits K result.2 := by
  unfold openExpansion
  rw [After.bind_iff]
  refine (Calmly.reading.readLink f location block s).mono fun link s₁ h₁ => ?_
  have h₁ : s.Enrolls K s₁ := .of_calm h₁
  rw [After.bind_iff, After.get_iff, After.bind_iff, orFail_iff]
  refine ⟨fun entry hentry => ?_, fun _ => trivial⟩
  obtain ⟨b, -, hb⟩ := Option.bind_eq_some_iff.1 hentry
  dsimp only
  cases arguments.keys.find? fun name => !entry.block.parameters.any (·.name = name) with
  | some name => exact trivial
  | none =>
    dsimp only
    rw [After.bind_iff]
    refine (Calmly.reading.expansionTag f location tag s₁).mono fun tag s₂ hc => ?_
    have h₂ : s.Enrolls K s₂ := h₁.trans (.of_calm hc)
    rw [After.bind_iff]
    refine (expandBlock_enrolls (h₂.founded hs) (h₂.housed hs hf)
      ⟨b, by rw [hc.registry]; exact hb⟩ tag location).mono fun inner s₃ ⟨h₃, hi⟩ => ?_
    have h₃ := h₂.trans h₃
    rw [After.bind_iff]
    refine (bindParameters_enrolling f inner location entry arguments s₃ (h₃.founded hs)
      (h₃.housed hs hf)).mono fun _ s₄ h₄ => ?_
    exact ⟨h₃.trans h₄, h₄.housed (h₃.founded hs) hi,
      ((h₁.founded hs).block b entry hb).body⟩

/-! ## Nodes -/

variable {enter : FrameId → List Node → Run Unit}

mutual

theorem registerNode_enrolling (he : ∀ f nodes, Node.Fits K nodes → Enrolling K f (enter f nodes)) :
    ∀ (n : Node) f, Node.Fits K [n] → Enrolling K f (registerNode enter f n)
  | .text content => fun f _ => .of_calm (registerText_calmly f content)
  | .labeled heading body => fun f hn s hs hf => by
    unfold registerNode
    rw [After.bind_iff]
    refine (registerHeading_enrolls hs hf heading).mono fun inner s₁ ⟨h₁, hi⟩ => ?_
    exact (registerNodes_enrolling he body inner hn.body s₁ (h₁.founded hs) hi).mono
      fun _ _ h => h₁.trans h
  | .embedding key location written => fun f _ => registerEmbedding_enrolling key location written
  | .expansion key location block tag arguments => fun f _ s hs hf => by
    unfold registerNode
    rw [After.bind_iff]
    refine (openExpansion_enrolls hs hf location block tag arguments).mono ?_
    rintro ⟨inner, body⟩ s₁ ⟨h₁, hi, hbody⟩
    dsimp only
    rw [After.bind_iff]
    refine (setState_calmly f key (.expansion inner body) s₁).mono fun _ s₂ h₂ => ?_
    have h₂ : s₁.Enrolls K s₂ := .of_calm h₂
    have h₁₂ := h₁.trans h₂
    exact (he inner body hbody s₂ (h₁₂.founded hs) (h₂.housed (h₁.founded hs) hi)).mono
      fun _ _ h => h₁₂.trans h
  | .term key location tag content => fun f _ => registerTerm_enrolling key location tag content
  | .probe key location questions body => fun f hn => by
    simpa [Node.asksAny, Node.asks] using hn.quiet

theorem registerNodes_enrolling
    (he : ∀ f nodes, Node.Fits K nodes → Enrolling K f (enter f nodes)) :
    ∀ (nodes : List Node) f, Node.Fits K nodes → Enrolling K f (registerNodes enter f nodes)
  | [] => fun f _ => .of_calm (.pure PUnit.unit)
  | n :: rest => fun f hn => by
    unfold registerNodes
    exact (registerNode_enrolling he n f hn.head).bind fun _ =>
      registerNodes_enrolling he rest f hn.tail

end

theorem registerWithin_enrolling (fuel : Nat) (f : FrameId) (nodes : List Node)
    (hn : Node.Fits K nodes) : Enrolling K f (registerWithin fuel f nodes) := by
  induction fuel generalizing f nodes with
  | zero => exact .of_get fun _ => .of_calm .fail
  | succ fuel ih =>
    unfold registerWithin
    exact registerNodes_enrolling ih nodes f hn

end Run

/-! ## Documents -/

namespace Resolution

/-- Documents have the scopes that they are registered with. -/
def Filed (s : Resolution) : Prop :=
  ∀ d info, s.info? d = some info → s.registry.documentScope? d = some info.scope

variable {K : Stock} {s s' : Resolution}

theorem Enrolls.filed (h : s.Enrolls K s') (hs : s.Founded K) (hd : s.Filed) : s'.Filed := by
  intro d info' hinfo'
  have hscope := h.infoScope d
  rw [hinfo', Option.map_some] at hscope
  obtain ⟨info, hinfo, heq⟩ := Option.map_eq_some_iff.1 hscope.symm
  rw [← heq]
  exact (h.moves.stays hs.synced).document d _ (hd d info hinfo)

/-- The frame of a document is housed in its scope. -/
theorem TopFrame.housed {d : String} {info : DocumentInfo} (h : s.TopFrame d info)
    (hs : s.registry.Synced) (hd : s.registry.documentScope? d = some info.scope) :
    s.Housed info.frame ∧ s.scopeOf info.frame = info.scope := by
  obtain ⟨frame, hframe, -, hdoc, hscope, -⟩ := h.frame
  obtain ⟨-, -, sc, hsc, -, hscd⟩ := hs.document d _ hd
  exact ⟨⟨frame, sc, hframe, hscope ▸ hsc, hscd.trans hdoc.symm⟩, (scopeOf_eq hframe).trans hscope⟩

end Resolution

/-- The registry of documents that are known has scopes for them, and only for them. -/
structure Known.Enrolled (ds : List Document) (s : Resolution) : Prop where
  reached : s.registry.Reached
  filed : s.Filed
  mem : ∀ d σ, s.registry.documentScope? d = some σ → d ∈ ds.map Document.path

theorem Known.Enrolled.withDocument {ds : List Document} {d : Document} {s : Resolution}
    (h : Known.Enrolled ds s) (habs : Path.isAbs d.path = true) (hd : ∀ e ∈ ds, e.path < d.path) :
    Known.Enrolled (ds ++ [d]) (s.withDocument d) := by
  have hnew : s.registry.documentScope? d.path = none := by
    cases hσ : s.registry.documentScope? d.path with
    | none => rfl
    | some σ =>
      obtain ⟨e, he, heq⟩ := List.mem_map.1 (h.mem _ _ hσ)
      exact (String.lt_irrefl d.path (heq ▸ hd e he)).elim
  have hscope : ∀ p, (s.withDocument d).registry.documentScope? p =
      if p = d.path then some s.registry.freshScope else s.registry.documentScope? p := fun p =>
    Table.lookup_cons d.path p s.registry.freshScope s.registry.index.documents
  refine ⟨h.reached.move (.document habs hnew), fun p info hinfo => ?_, fun p σ hσ => ?_⟩
  · rw [hscope]
    unfold Resolution.info? at hinfo
    change (s.documents.put d.path _).lookup p = _ at hinfo
    rw [Table.lookup_put] at hinfo
    split at hinfo
    next heq =>
      rw [if_pos heq]
      cases hinfo
      rfl
    next hne =>
      rw [if_neg hne]
      exact h.filed p info hinfo
  · rw [hscope] at hσ
    split at hσ
    next heq => simp [heq]
    · rw [List.map_append]
      exact List.mem_append_left _ (h.mem p σ hσ)

namespace Known.Enrolled

variable {c : Collection} {s : Resolution}

theorem founded {K : Stock} {ds : List Document} {options : Options}
    (h : Known.Enrolled ds s) (hk : Known options ds s) : s.Founded K where
  reached := h.reached
  block b e hb := by simp [Registry.block?, hk.blocks] at hb

theorem housed (h : Known.Enrolled (c.documents.map Prod.snd) s)
    (hk : Known c.options (c.documents.map Prod.snd) s) (hc : c.Described) :
    ∀ p ∈ s.documents, s.Housed p.2.frame ∧ s.scopeOf p.2.frame = p.2.scope := fun p hp =>
  (hk.opened p hp).housed h.reached.synced (h.filed _ _ (hk.info? hc hp))

end Known.Enrolled

namespace Run

theorem addDocuments_enrolled (c : Collection) {ds : List Document}
    (habs : ∀ d ∈ ds, Path.isAbs d.path = true) (hd : ds.Pairwise fun d e => d.path < e.path) :
    After True (ds.forM addDocument) c.start fun _ s => Known.Enrolled ds s := by
  refine (After.forM_split (J := fun pre _ s => Known c.options pre s ∧ Known.Enrolled pre s) ?_
    ⟨Known.start c, ⟨c.options.sectionType, .refl⟩, fun d info hinfo => ?_, fun d σ hσ => ?_⟩).mono
    fun _ _ h => h.2
  · rintro pre d post s rfl ⟨hk, he⟩
    have hlt : ∀ e ∈ pre, e.path < d.path := fun e he =>
      (List.pairwise_append.1 hd).2.2 e he d (by simp)
    unfold addDocument
    rw [After.bind_iff, After.get_iff]
    dsimp only
    rw [After.bind_iff, After.set_iff, After.bind_iff, pushFrame_iff, After.modify_iff]
    exact ⟨hk.withDocument hlt, he.withDocument (habs d (by simp)) hlt⟩
  · cases hinfo
  · cases hσ

end Run

namespace Run

variable {K : Stock} {s₁ s : Resolution}

/-- Frames of documents keep their scopes while the blocks of others are registered. -/
theorem registerAllBlocks_enrolls (hf : s₁.Founded K)
    (hfits : ∀ p ∈ s₁.documents, p.2.document.Fits K)
    (hhoused : ∀ p ∈ s₁.documents,
      s₁.Housed p.2.frame ∧ s₁.scopeOf p.2.frame = p.2.scope) :
    After True (s₁.documents.forM fun (_, info) =>
      registerBlocks info.scope info.frame info.document.blocks) s₁ fun _ s => s₁.Enrolls K s := by
  refine After.forM (fun p hp s hs => ?_) (.refl s₁)
  have hscope : s.scopeOf p.2.frame = p.2.scope := by
    obtain ⟨frame, -, hframe, -⟩ := (hhoused p hp).1
    obtain ⟨frame', hframe', ha⟩ := hs.frame _ frame hframe
    rw [scopeOf_eq hframe', ha.2.2.1, ← scopeOf_eq hframe, (hhoused p hp).2]
  exact (registerBlocks_enrolling _ _ (hfits p hp).blocks (hs.founded hf)
    (hs.housed hf (hhoused p hp).1) hscope).mono fun _ _ h => hs.trans h

/-- The ranges that a document sets are asked for before its nodes are registered. -/
theorem registerDocument_enrolling (depth : Nat) {p : String × DocumentInfo}
    (hfits : p.2.document.Fits K) : Enrolling K p.2.frame (do
      p.2.document.settings.keys.forM (requestRange p.2.frame)
      registerWithin depth p.2.frame p.2.document.nodes) :=
  (Enrolling.forM _ fun typ _ => requestRange_enrolling typ).bind fun _ =>
    registerWithin_enrolling _ _ _ hfits.nodes

end Run

/-- The registry of documents that are registered is reached, and holds their scopes. -/
theorem Collection.Described.registerAll_enrolls {c : Collection} (h : c.Described)
    (habs : ∀ path ∈ c.documents.keys, Path.isAbs path = true) :
    After True (Run.registerAll (c.documents.map Prod.snd)) c.start fun _ s =>
      s.registry.Reached ∧ s.Filed := by
  unfold Run.registerAll
  rw [After.bind_iff]
  have habs' : ∀ d ∈ c.documents.map Prod.snd, Path.isAbs d.path = true := fun d hd =>
    habs _ (h.paths_eq ▸ List.mem_map_of_mem hd)
  refine ((Run.addDocuments_spec c h.sorted_paths).and
    (Run.addDocuments_enrolled c habs' h.sorted_paths)).mono fun _ s₁ ⟨hk, he⟩ => ?_
  rw [After.bind_iff, After.get_iff]
  dsimp only
  have hfits : ∀ p ∈ s₁.documents, p.2.document.Fits c.stock := fun p hp => h.fits (hk.mem h hp)
  have hfounded := he.founded hk (K := c.stock)
  have hhoused := he.housed hk h
  rw [After.bind_iff]
  refine (Run.registerAllBlocks_enrolls hfounded hfits hhoused).mono fun _ s₂ h₂ => ?_
  refine After.mono (Q := fun _ s => s₁.Enrolls c.stock s) ?_ fun _ s h =>
    ⟨(h.founded hfounded).reached, h.filed hfounded he.filed⟩
  refine After.forM (fun p hp s hs => ?_) h₂
  exact (Run.registerDocument_enrolling _ (hfits p hp) s (hs.founded hfounded)
    (hs.housed hfounded (hhoused p hp).1)).mono fun _ _ h => hs.trans h

end Folio
