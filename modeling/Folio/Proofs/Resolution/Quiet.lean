import Folio.Proofs.Resolution.Reading
import Folio.Proofs.Resolution.State
import Mathlib.Tactic.Set

/-!
# Steps that register no node

Reading links and tags, evaluating texts and binding arguments open frames and scopes and set the
states of parts of texts. None of them touches what is known about nodes: they are *quiet*
(`Resolution.Quiet`).
-/

namespace Folio

open Resolution

/-- The step is quiet, and `R` holds of its answer. -/
def Run.Quietly {α : Type} (K : Stock) (m : Run α) (R : α → Prop) : Prop :=
  ∀ s, Fine K s → After True m s fun a s' => Quiet K s s' ∧ R a

namespace Run.Quietly

variable {K : Stock} {α β : Type} {R : α → Prop} {S : β → Prop}

theorem pure {a : α} (h : R a) : Quietly K (Pure.pure a) R := fun _ hs => ⟨.refl hs, h⟩

theorem bind {m : Run α} {f : α → Run β} (hm : Quietly K m R)
    (hf : ∀ a, R a → Quietly K (f a) S) : Quietly K (m >>= f) S := by
  intro s hs
  rw [After.bind_iff]
  refine (hm s hs).mono fun a s' ⟨hq, ha⟩ => ?_
  exact (hf a ha s' hq.fine).mono fun b s'' ⟨hq', hb⟩ => ⟨hq.trans hq', hb⟩

/-- A step that looks at what is known first. -/
theorem get_bind {f : Resolution → Run β} (hf : ∀ s, Fine K s →
    After True (f s) s fun b s' => Quiet K s s' ∧ S b) : Quietly K (get >>= f) S := by
  intro s hs
  rw [After.bind_iff]
  exact hf s hs

/-- A step that only looks at what is known. -/
theorem get_pure {f : Resolution → β} (hf : ∀ s, Fine K s → S (f s)) :
    Quietly K (get >>= fun s => Pure.pure (f s)) S :=
  get_bind fun s hs => ⟨.refl hs, hf s hs⟩

theorem of_get {f : Resolution → Run β} (hf : ∀ s, Fine K s → Quietly K (f s) S) :
    Quietly K (get >>= f) S :=
  get_bind fun s hs => hf s hs s hs

theorem fail {location : Location} {cause : Cause} : Quietly K (Run.fail location cause) R :=
  fun _ _ => trivial

theorem orFail {location : Location} {cause : Cause} {x : Option α} (h : ∀ a, x = some a → R a) :
    Quietly K (Run.orFail location cause x) R := by
  cases x with
  | none => exact fail
  | some a => exact .pure (h a rfl)

end Run.Quietly

namespace Run

variable {K : Stock}

/-! ## Texts -/

theorem lookupValue_quietly (f : FrameId) (name : String) :
    Quietly K (lookupValue f name) fun b => ∀ binding, b = some binding → binding.body.Fits K := by
  refine .get_pure fun s hs binding hb => ?_
  obtain ⟨v, -, hv⟩ := Option.bind_eq_some_iff.1 hb
  exact hs.value v binding hv

theorem staticFrame_quietly (f : FrameId) (binding : Binding) :
    Quietly K (staticFrame f binding) fun _ => True :=
  .get_bind fun _ hs => ⟨.push hs (hs.scope_lt binding.frame) trivial, trivial⟩

theorem Quietly.reading : Reading fun _ _ m => Quietly K m fun _ => True where
  pure _ := .pure trivial
  bind hm hk := hm.bind fun a _ => hk a
  of_get hk := .of_get fun s _ => hk s
  fail _ := .fail
  openValue name _ _ hk := by
    refine (lookupValue_quietly _ name).bind fun b hb => (Quietly.orFail hb).bind fun binding _ => ?_
    exact (staticFrame_quietly _ binding).bind fun inner _ => hk binding inner

theorem setPart_quietly (f : FrameId) {key : NodeKey} {state : NodeState} (hk : ¬K.key key)
    (hst : state.isFixed = false) : Quietly K (setState f key state) fun _ => True :=
  fun _ hs => ⟨.setPart hs hst hk, trivial⟩

theorem registerTextWithin_quietly (fuel : Nat) (f : FrameId) {body : InlineText}
    (hb : body.Fits K) : Quietly K (registerTextWithin fuel f body) fun _ => True := by
  induction fuel generalizing f body with
  | zero => exact .fail
  | succ fuel ih =>
    unfold registerTextWithin
    refine Quietly.reading.forM f body.parts fun part hp => ?_
    have hkey : ∀ key, part.key? = some key → ¬K.key key := fun key hk =>
      hb key (List.mem_filterMap.2 ⟨part, hp, by simp [hk]⟩)
    rcases part with text | ⟨key, aspect, link⟩ | ⟨key, name⟩ | name | tag
    · exact .pure trivial
    · exact (Quietly.reading.readLink f body.location link).bind fun _ _ =>
        setPart_quietly f (hkey key rfl) rfl
    · refine (lookupValue_quietly f name).bind fun b hb => ?_
      refine (Quietly.orFail hb).bind fun binding hbinding => ?_
      refine (staticFrame_quietly f binding).bind fun inner _ => ?_
      exact (setPart_quietly f (hkey key rfl) rfl).bind fun _ _ => ih inner hbinding
    · exact .of_get fun _ _ =>
        (Quietly.orFail (R := fun _ => True) fun _ _ => trivial).bind fun _ _ => .pure trivial
    · exact .pure trivial

theorem registerText_quietly (f : FrameId) {body : InlineText} (hb : body.Fits K) :
    Quietly K (registerText f body) fun _ => True :=
  .of_get fun _ _ => registerTextWithin_quietly _ f hb

end Run

/-! ## Registering names -/

/-- The step registers no labeled node. -/
def Registry.Quietly {α : Type} (K : Stock) (m : Registry.Step α) : Prop :=
  ∀ r, After True m r fun _ r' => Registry.Quiet K r r'

namespace Registry.Quietly

variable {K : Stock} {α β : Type}

theorem pure (a : α) : Registry.Quietly K (Pure.pure a) := fun r => .refl r

theorem bind {m : Registry.Step α} {f : α → Registry.Step β} (hm : Registry.Quietly K m)
    (hf : ∀ a, Registry.Quietly K (f a)) : Registry.Quietly K (m >>= f) := by
  intro r
  rw [After.bind_iff]
  refine (hm r).mono fun a r' hr => ?_
  exact (hf a r').mono fun b r'' hr' => hr.trans hr'

theorem get_bind {f : Registry → Registry.Step β}
    (hf : ∀ r, After True (f r) r fun _ r' => Registry.Quiet K r r') :
    Registry.Quietly K (get >>= f) := by
  intro r
  rw [After.bind_iff]
  exact hf r

end Registry.Quietly

namespace Registry

variable {K : Stock}

theorem registerIn_quietly (scope : ScopeId) (id : EntryId) (e : Entry) (tags : List String) :
    Registry.Quietly K (registerIn scope id e tags) := by
  refine .get_bind fun r => ?_
  split
  · dsimp only
    split
    · exact trivial
    · split
      · exact trivial
      · exact .modifyScope ..
  · exact .refl _

theorem registerUp_quietly (id : EntryId) (e : Entry) (explicit : Bool) (scopes : List ScopeId)
    (tags : List String) : Registry.Quietly K (registerUp id e explicit scopes tags) := by
  induction scopes generalizing tags with
  | nil => exact .pure tags
  | cons scope rest ih =>
    unfold registerUp
    exact (registerIn_quietly scope id e tags).bind fun _ => .get_bind fun r => ih _ r

theorem registerAddress_quietly (id : EntryId) (e : Entry) (tag : String) :
    Registry.Quietly K (registerAddress id e tag) := by
  refine .get_bind fun r => ?_
  dsimp only
  split
  · exact trivial
  · refine { Registry.Quiet.refl r with place := fun path anchor address ha => ?_ }
    change List.lookup _ ((_, _) :: r.index.addresses) = _ at ha
    rw [List.lookup_cons] at ha
    split at ha
    next h =>
      cases ha
      split at h <;> simp_all
    · exact .inl ha

theorem registerTagUp_quietly (typ : String) (e : TagEntry) (explicit : Bool)
    (scopes : List ScopeId) (document tag : String) :
    Registry.Quietly K (registerTagUp typ e explicit scopes document tag) := by
  induction scopes generalizing document tag with
  | nil => exact .pure _
  | cons scope rest ih =>
    unfold registerTagUp
    refine .get_bind fun r => ?_
    split
    · exact ih _ _ r
    · split
      · exact trivial
      · rw [After.bind_iff]
        exact (ih _ _ _).mono fun _ _ h => (Registry.Quiet.modifyScope ..).trans h

theorem registerTag_quietly (scope : ScopeId) (typ tag : String) (e : TagEntry) (explicit : Bool) :
    Registry.Quietly K (registerTag scope typ tag e explicit) := by
  refine .get_bind fun r => ?_
  rw [After.bind_iff]
  refine (registerTagUp_quietly (K := K) typ e explicit (r.dynamicChain scope) "" tag r).mono ?_
  rintro ⟨document, tag⟩ r' hr'
  dsimp only
  rw [After.bind_iff, After.get_iff]
  split
  · exact trivial
  · exact hr'.trans (.modifyIndex r' rfl)

theorem registerBlockUp_quietly (tag : String) (location : Location) (id : BlockId)
    (scopes : List ScopeId) : Registry.Quietly K (registerBlockUp tag location id scopes) := by
  induction scopes with
  | nil =>
    refine .get_bind fun r => ?_
    split
    · exact trivial
    · exact .modifyIndex r rfl
  | cons scope rest ih =>
    unfold registerBlockUp
    refine .get_bind fun r => ?_
    dsimp only
    split
    · exact trivial
    · rw [After.bind_iff]
      change After True (if Path.isAbs tag = true then _ else _) _ _
      split
      · exact (ih _).mono fun _ _ h => (Registry.Quiet.modifyScope ..).trans h
      · exact .modifyScope ..

theorem registerBlock_quietly (scope : ScopeId) (tag : String) {e : BlockEntry}
    (he : e.block.Fits K) : Registry.Quietly K (registerBlock scope tag e) := by
  refine .get_bind fun r => ?_
  rw [After.bind_iff]
  change After True (registerBlockUp tag _ _ _ >>= fun _ => Pure.pure _) _ _
  rw [After.bind_iff]
  exact (registerBlockUp_quietly tag _ _ _ _).mono fun _ _ h => (Registry.Quiet.pushBlock r he).trans h

theorem Quiet.nextName {r r' : Registry} {scope : ScopeId} {name n : String} {extend : Bool}
    (h : r.nextName scope name extend = .ok (n, r')) : Registry.Quiet K r r' := by
  unfold Registry.nextName at h
  dsimp only at h
  split at h <;> cases h
  exact .modifyScope ..

theorem Quiet.addChild {r r' : Registry} {scope child : ScopeId} {name : String}
    (h : r.addChild scope name child = .ok r') : Registry.Quiet K r r' := by
  unfold Registry.addChild at h
  split at h <;> cases h
  exact .modifyScope ..

end Registry

namespace Run

variable {K : Stock}

theorem registry_iff {α : Type} {E : Prop} {step : Registry.Step α} {s : Resolution}
    {Q : α → Resolution → Prop} : After E (Run.registry step) s Q ↔
      After E step s.registry fun a registry => Q a { s with registry } := by
  unfold Run.registry After
  cases h : step s.registry <;> simp only [h]

theorem registry_quietly {α : Type} {step : Registry.Step α} (h : Registry.Quietly K step) :
    Quietly K (Run.registry step) fun _ => True := by
  intro s hs
  rw [registry_iff]
  exact (h s.registry).mono fun _ _ hr => ⟨.registry hs hr, trivial⟩

/-! ## Expansions -/

theorem bindDefaults_quietly (f : FrameId) (ps : List Parameter) (defaults : Table ValueId)
    (hp : ∀ p ∈ ps, ∀ body, p.default = some body → body.Fits K) :
    Quietly K (bindDefaults f ps defaults) fun _ => True := by
  induction ps generalizing defaults with
  | nil => exact .pure trivial
  | cons p rest ih =>
    have hrest := fun defaults => ih defaults fun q hq => hp q (by simp [hq])
    unfold bindDefaults
    split
    · exact hrest defaults
    next body hbody =>
      refine .get_bind fun s hs => ?_
      dsimp only
      rw [After.bind_iff, After.set_iff]
      have hq : Quiet K s { s with registry := (s.registry.addValue ⟨body, f⟩).2 } :=
        .registry hs (.addValue _ (hp p (by simp) body hbody))
      exact (hrest _ _ hq.fine).mono fun _ _ ⟨h, _⟩ => ⟨hq.trans h, trivial⟩

theorem registerBlocks_quietly (scope : ScopeId) (f : FrameId) (blocks : List Block)
    (hb : ∀ b ∈ blocks, b.Fits K) : Quietly K (registerBlocks scope f blocks) fun _ => True := by
  refine Quietly.reading.forM f blocks fun b hmem => ?_
  refine (bindDefaults_quietly f b.parameters [] fun p hp body => (hb b hmem).default hp).bind
    fun defaults _ => ?_
  exact (registry_quietly (Registry.registerBlock_quietly scope b.tag (hb b hmem))).bind
    fun _ _ => .pure trivial

theorem pushFrame_iff {E : Prop} {frame : Frame} {s : Resolution}
    {Q : FrameId → Resolution → Prop} : After E (pushFrame frame) s Q ↔
      Q s.freshFrame { s with frames := s.frames.push frame } := Iff.rfl

/-- An expansion gets a name, a scope and a frame. The blocks inside are registered then. -/
theorem expandBlock_after {f : FrameId} {entry : BlockEntry} {tag : Option String}
    {location : Location} {s : Resolution} {Q : FrameId → Resolution → Prop}
    (h : ∀ name r r' calls, s.registry.nextName (s.scopeOf f)
        (tag.getD (scopeName entry.block.tag)) tag.isNone = .ok (name, r) →
      (r.newScope name (s.documentOf f) (some (s.scopeOf f)) (some entry.scope)).2.addChild
        (s.scopeOf f) name ⟨r.scopes.size⟩ = .ok r' →
      After True (registerBlocks ⟨r.scopes.size⟩ s.freshFrame entry.block.blocks)
        { s with
          registry := r'
          frames := s.frames.push ⟨some f, s.documentOf f, ⟨r.scopes.size⟩, .block calls⟩ }
        fun _ s' => Q s.freshFrame s') :
    After True (expandBlock f entry tag location) s Q := by
  unfold expandBlock
  rw [After.bind_iff, After.get_iff]
  dsimp only
  rcases hn : s.registry.nextName (s.scopeOf f) (tag.getD (scopeName entry.block.tag))
    tag.isNone with cause | ⟨name, r⟩
  · exact trivial
  rw [After.bind_iff, After.pure_iff]
  dsimp only
  rw [After.bind_iff, After.set_iff]
  cases (s.callStack f).add? entry.block.name location with
  | error cycle => exact trivial
  | ok calls =>
    dsimp only
    rw [After.bind_iff, After.pure_iff, After.bind_iff, After.modify_iff]
    have hfresh : (r.newScope name (s.documentOf f) (some (s.scopeOf f)) (some entry.scope)).1 =
        ⟨r.scopes.size⟩ := rfl
    rw [hfresh]
    cases hc : (r.newScope name (s.documentOf f) (some (s.scopeOf f))
      (some entry.scope)).2.addChild (s.scopeOf f) name ⟨r.scopes.size⟩ with
    | error cause => exact trivial
    | ok r' =>
      dsimp only
      rw [After.bind_iff, After.modify_iff, After.bind_iff, pushFrame_iff, After.bind_iff]
      exact (h name r r' calls hn hc).mono fun _ _ hq => hq

/-- An expansion has a frame of its own, with a scope that is new. -/
structure Opened (s s' : Resolution) (f inner : FrameId) : Prop where
  frame : ∃ frame, s'.frame? inner = some frame ∧ s.registry.scopes.size ≤ frame.scope.index ∧
    frame.document = s.documentOf f ∧ frame.parent = some f ∧ ∃ calls, frame.kind = .block calls

theorem Opened.trans {s s' s'' : Resolution} {f inner : FrameId} (h : Opened s s' f inner)
    (hq : s'.Grows s'') : Opened s s'' f inner := by
  obtain ⟨frame, hf, hs, hd, hp, calls, hk⟩ := h.frame
  obtain ⟨frame', hf', hp', hd', hs', hk'⟩ := hq.frame inner frame hf
  refine ⟨frame', hf', hs' ▸ hs, hd'.trans hd, hp'.trans hp, ?_⟩
  rw [hk] at hk'
  cases hfk : frame'.kind <;> rw [hfk] at hk' <;> simp [FrameKind.Alike] at hk'
  exact ⟨_, rfl⟩

theorem Opened.of_grows {s s' s'' : Resolution} {f inner : FrameId} {outer : Frame}
    (h : Opened s' s'' f inner) (hs : s.Grows s') (hf : s.frame? f = some outer) :
    Opened s s'' f inner := by
  obtain ⟨frame, hframe, hscope, hd, hp, hk⟩ := h.frame
  exact ⟨frame, hframe, Nat.le_trans hs.scopes hscope, hd.trans (hs.documentOf_eq hf), hp, hk⟩

theorem expandBlock_spec (f : FrameId) {entry : BlockEntry} (he : entry.block.Fits K)
    (tag : Option String) (location : Location) {s : Resolution} (hs : Fine K s) :
    After True (expandBlock f entry tag location) s fun inner s' =>
      Quiet K s s' ∧ Opened s s' f inner := by
  refine expandBlock_after fun name r r' calls hn hc => ?_
  have hr : Registry.Quiet K s.registry r := .nextName hn
  have hr' : Registry.Quiet K s.registry r' := (hr.trans (.newScope ..)).trans (.addChild hc)
  have hlt : r.scopes.size < r'.scopes.size := by
    refine Nat.lt_of_lt_of_le ?_ (Registry.Quiet.addChild (K := K) hc).scopes
    simp [Registry.newScope]
  set frame : Frame := ⟨some f, s.documentOf f, ⟨r.scopes.size⟩, .block calls⟩ with hframe
  have hq : Quiet K s { s with registry := r' } := .registry hs hr'
  have hpush : Quiet K s { s with registry := r', frames := s.frames.push frame } :=
    hq.trans (.push hq.fine hlt trivial)
  have hopened : Opened s { s with registry := r', frames := s.frames.push frame } f
      s.freshFrame := by
    refine ⟨frame, ?_, hr.scopes, rfl, rfl, calls, rfl⟩
    exact (frame?_push (s := s) frame s.freshFrame).trans (if_pos rfl)
  refine (registerBlocks_quietly ⟨r.scopes.size⟩ s.freshFrame entry.block.blocks
    (fun b hb => he.blocks hb) _ hpush.fine).mono ?_
  rintro _ s' ⟨hq', -⟩
  exact ⟨hpush.trans hq', hopened.trans hq'.toGrows⟩

theorem setValue_quietly (f : FrameId) (name : String) (value : ValueId) :
    Quietly K (setValue f name value) fun _ => True :=
  fun _ hs => ⟨.registry hs (.modifyScope ..), trivial⟩

theorem addValue_quietly {body : InlineText} (hb : body.Fits K) (f : FrameId) :
    Quietly K (addValue body f) fun _ => True :=
  .get_bind fun s hs => ⟨.registry hs (.addValue s.registry hb), trivial⟩

theorem bindParameters_quietly (caller inner : FrameId) (location : Location) (entry : BlockEntry)
    {arguments : Table InlineText} (ha : ∀ name text, (name, text) ∈ arguments → text.Fits K) :
    Quietly K (bindParameters caller inner location entry arguments) fun _ => True := by
  refine Quietly.reading.forM inner _ fun p _ => ?_
  dsimp only
  split
  next text h =>
    exact (addValue_quietly (ha _ text (Table.mem_of_lookup h)) caller).bind fun value _ =>
      setValue_quietly inner p.name value
  · exact setValue_quietly inner p.name _
  · exact (Quietly.fail (R := fun _ => False)).bind fun _ hf => hf.elim

theorem openExpansion_spec (f : FrameId) (location : Location) (block : String)
    (tag : Option String) {arguments : Table InlineText}
    (ha : ∀ name text, (name, text) ∈ arguments → text.Fits K) {s : Resolution} (hs : Fine K s)
    {frame : Frame} (hf : s.frame? f = some frame) :
    After True (openExpansion f location block tag arguments) s fun result s' =>
      Quiet K s s' ∧ Opened s s' f result.1 ∧ Node.Fits K result.2 := by
  unfold openExpansion
  rw [After.bind_iff]
  refine (Quietly.reading.readLink f location block s hs).mono fun link s₁ ⟨h₁, _⟩ => ?_
  rw [After.bind_iff, After.get_iff, After.bind_iff]
  refine (Quietly.orFail (R := fun entry => entry.block.Fits K) ?_ s₁ h₁.fine).mono
    fun entry s₂ ⟨h₂, he⟩ => ?_
  · intro entry h
    obtain ⟨b, -, hb⟩ := Option.bind_eq_some_iff.1 h
    exact h₁.fine.block b entry hb
  have h₂ := h₁.trans h₂
  dsimp only
  cases arguments.keys.find? fun name => !entry.block.parameters.any (·.name = name) with
  | some name => exact trivial
  | none =>
    dsimp only
    rw [After.bind_iff]
    refine (Quietly.reading.expansionTag f location tag s₂ h₂.fine).mono fun tag s₃ ⟨h₃, _⟩ => ?_
    have h₃ := h₂.trans h₃
    rw [After.bind_iff]
    refine (expandBlock_spec f he tag location h₃.fine).mono fun inner s₄ ⟨h₄, hopened⟩ => ?_
    rw [After.bind_iff]
    refine (bindParameters_quietly f inner location entry ha s₄ h₄.fine).mono
      fun _ s₅ ⟨h₅, _⟩ => ?_
    exact ⟨(h₃.trans h₄).trans h₅, (hopened.of_grows h₃.toGrows hf).trans h₅.toGrows, he.body⟩

end Run

end Folio
