import Folio.Proofs.Calls
import Folio.Proofs.Resolution.Calm
import Folio.Proofs.Resolution.Safely
import Folio.Proofs.Scope.Values

/-!
# Where values are evaluated

A value is evaluated in a frame with the scope that it was bound in, but with the document that is
worked on. So its text is read as in the frame that it was bound in if the documents are the same.
For arguments they are, as long as expansions are domestic (`Registry.Domestic`): the frame that an
argument is bound in, and the scopes that see the parameter, lie in one document.

`Resolution.Hygienic` is what registration keeps of that. A state that is kept for a value comes from
the value that its scope sees under the name (`Resolution.StandsFor`), and a state that is kept for a
block reference comes with its arguments (`Resolution.Passes`). Reading texts opens frames and sets
states, and stays hygienic (`Run.registerText_neat`).
-/

namespace Folio

open Resolution

namespace Resolution

/-- In the scope of an expansion, the document is the one of the scope, as far as expansions are
domestic. -/
def AtHome (s : Resolution) (σ : ScopeId) (document : String) : Prop :=
  ∃ sc, s.registry.scope? σ = some sc ∧
    (s.registry.Domestic → sc.parent.isSome → document = sc.document)

/-- A value was bound in the document of the scope, or in the scope that its block is defined in. -/
def Lends (s : Resolution) (sc : Scope) (v : ValueId) : Prop :=
  ∃ binding frame, s.registry.value? v = some binding ∧ s.frame? binding.frame = some frame ∧
    (frame.document = sc.document ∨ sc.origin = some frame.scope)

/-- The text is the value that a scope sees under the name. The frame for it has the scope that it
was bound in, and, as far as expansions are domestic, the document of the scope that sees it. -/
def StandsFor (s : Resolution) (σ : ScopeId) (name : String) (inner : FrameId)
    (body : InlineText) : Prop :=
  ∃ v g sc frame outer, s.registry.lookupValue σ name = some v ∧
    s.registry.value? v = some ⟨body, g⟩ ∧ s.registry.scope? σ = some sc ∧
    s.frame? inner = some frame ∧ s.frame? g = some outer ∧ frame.scope = outer.scope ∧
    (s.registry.Domestic → frame.document = sc.document)

/-- The scope of an expansion knows the arguments of the block reference, bound to the frame of the
caller, in whose document it lies. -/
def Passes (c : Collection) (s : Resolution) (key : NodeKey) (inner : FrameId) : Prop :=
  ∃ f outer frame sc arguments, c.HasCall key arguments ∧ s.frame? f = some outer ∧
    s.frame? inner = some frame ∧ frame.parent = some f ∧
    s.registry.scope? frame.scope = some sc ∧ sc.parent.isSome ∧ outer.document = sc.document ∧
    ∀ name text, arguments.lookup name = some text → ∃ v, sc.values.lookup name = some v ∧
      s.registry.value? v = some ⟨text, f⟩

/-- The state of a value or a block reference is what it should be. -/
def Accounts (c : Collection) (s : Resolution) (σ : ScopeId) (key : NodeKey) : NodeState → Prop
  | .value inner body => ∃ t name, c.HasText t ∧ .value key name ∈ t.parts ∧
    s.StandsFor σ name inner body
  | .expansion inner _ => s.Passes c key inner
  | _ => True

/-- A frame that lies in no other one has the scope of a document. -/
def Outermost (s : Resolution) (frame : Frame) : Prop :=
  frame.parent = none → ∃ sc, s.registry.scope? frame.scope = some sc ∧ sc.parent = none

/-- Values are evaluated in the scopes that they were bound in. As far as expansions are domestic,
this is done for the document of the scope that sees the value. -/
structure Hygienic (c : Collection) (s : Resolution) : Prop where
  rooted : ∀ σ sc, s.registry.scope? σ = some sc → sc.Rooted
  lends : ∀ σ sc name v, s.registry.scope? σ = some sc → sc.values.lookup name = some v →
    s.Lends sc v
  home : ∀ f frame, s.frame? f = some frame → s.AtHome frame.scope frame.document
  outermost : ∀ f frame, s.frame? f = some frame → s.Outermost frame
  state : ∀ σ key st, s.stateIn? σ key = some st → s.Accounts c σ key st

/-- Scopes keep their places and values, and frames their scopes and documents. -/
structure Endures (s s' : Resolution) : Prop where
  registry : s.registry.Retains s'.registry
  frame : ∀ f frame, s.frame? f = some frame → ∃ frame', s'.frame? f = some frame' ∧
    frame'.parent = frame.parent ∧ frame'.document = frame.document ∧ frame'.scope = frame.scope

section

variable {c : Collection} {s s' : Resolution}

theorem Endures.trans {s'' : Resolution} (h : s.Endures s') (h' : s'.Endures s'') :
    s.Endures s'' where
  registry := h.registry.trans h'.registry
  frame f frame hf := by
    obtain ⟨frame', hf', hp, hd, hs⟩ := h.frame f frame hf
    obtain ⟨frame'', hf'', hp', hd', hs'⟩ := h'.frame f frame' hf'
    exact ⟨frame'', hf'', hp'.trans hp, hd'.trans hd, hs'.trans hs⟩

theorem AtHome.endures {σ : ScopeId} {document : String} (h : s.AtHome σ document)
    (he : s.Endures s') : s'.AtHome σ document := by
  obtain ⟨sc, hσ, hdoc⟩ := h
  obtain ⟨sc', hσ', hplace, -⟩ := he.registry.scope σ sc hσ
  refine ⟨sc', hσ', fun hd hp => ?_⟩
  rw [Scope.parent_eq_of_place hplace] at hp
  rw [hdoc (he.registry.domestic hd) hp, Scope.document_eq_of_place hplace]

theorem Outermost.endures {frame frame' : Frame} (h : s.Outermost frame) (he : s.Endures s')
    (hp : frame'.parent = frame.parent) (hs : frame'.scope = frame.scope) : s'.Outermost frame' := by
  intro hnone
  obtain ⟨sc, hσ, hparent⟩ := h (hp.symm.trans hnone)
  obtain ⟨sc', hσ', hplace, -⟩ := he.registry.scope _ sc hσ
  exact ⟨sc', hs ▸ hσ', (Scope.parent_eq_of_place hplace).trans hparent⟩

theorem Lends.mono {sc sc' : Scope} {v : ValueId} (h : s.Lends sc v)
    (hv : ∀ v binding, s.registry.value? v = some binding → s'.registry.value? v = some binding)
    (hf : ∀ f frame, s.frame? f = some frame → ∃ frame', s'.frame? f = some frame' ∧
      frame'.parent = frame.parent ∧ frame'.document = frame.document ∧
      frame'.scope = frame.scope) (hd : sc'.document = sc.document) (ho : sc'.origin = sc.origin) :
    s'.Lends sc' v := by
  obtain ⟨binding, frame, hb, hframe, hlent⟩ := h
  obtain ⟨frame', hf', -, hdoc, hscope⟩ := hf _ frame hframe
  refine ⟨binding, frame', hv v binding hb, hf', ?_⟩
  rw [hdoc, hscope, hd, ho]
  exact hlent

theorem Lends.endures {sc sc' : Scope} {v : ValueId} (h : s.Lends sc v) (he : s.Endures s')
    (hplace : sc'.place = sc.place) : s'.Lends sc' v :=
  h.mono he.registry.value he.frame (Scope.document_eq_of_place hplace)
    (Scope.origin_eq_of_place hplace)

theorem StandsFor.endures {σ : ScopeId} {name : String} {inner : FrameId} {body : InlineText}
    (h : s.StandsFor σ name inner body) (he : s.Endures s') : s'.StandsFor σ name inner body := by
  obtain ⟨v, g, sc, frame, outer, hv, hb, hσ, hf, hg, hscope, hdoc⟩ := h
  obtain ⟨sc', hσ', hplace, -⟩ := he.registry.scope σ sc hσ
  obtain ⟨frame', hf', -, hdoc', hscope'⟩ := he.frame inner frame hf
  obtain ⟨outer', hg', -, -, hscope''⟩ := he.frame g outer hg
  refine ⟨v, g, sc', frame', outer', he.registry.lookupValue hv, he.registry.value v _ hb, hσ', hf',
    hg', ?_, fun hd => ?_⟩
  · rw [hscope', hscope'', hscope]
  · rw [hdoc', hdoc (he.registry.domestic hd), Scope.document_eq_of_place hplace]

theorem Passes.endures {key : NodeKey} {inner : FrameId} (h : s.Passes c key inner)
    (he : s.Endures s') : s'.Passes c key inner := by
  obtain ⟨f, outer, frame, sc, arguments, hcall, hf, hi, hparent, hσ, hp, hdoc, hargs⟩ := h
  obtain ⟨outer', hf', -, hdoc', -⟩ := he.frame f outer hf
  obtain ⟨frame', hi', hparent', -, hscope'⟩ := he.frame inner frame hi
  obtain ⟨sc', hσ', hplace, hvalues⟩ := he.registry.scope _ sc hσ
  refine ⟨f, outer', frame', sc', arguments, hcall, hf', hi', hparent'.trans hparent, ?_, ?_, ?_, ?_⟩
  · rw [hscope']
    exact hσ'
  · rw [Scope.parent_eq_of_place hplace]
    exact hp
  · rw [hdoc', hdoc, Scope.document_eq_of_place hplace]
  · intro name text hlookup
    obtain ⟨v, hv, hb⟩ := hargs name text hlookup
    rw [hvalues]
    exact ⟨v, hv, he.registry.value v _ hb⟩

theorem Accounts.endures {σ : ScopeId} {key : NodeKey} {st : NodeState}
    (h : s.Accounts c σ key st) (he : s.Endures s') : s'.Accounts c σ key st := by
  cases st with
  | value inner body =>
    obtain ⟨t, name, ht, hp, hvalue⟩ := h
    exact ⟨t, name, ht, hp, hvalue.endures he⟩
  | expansion inner body => exact Passes.endures h he
  | _ => trivial

/-- Scopes, frames and states may be new if they are what they should be. -/
theorem Hygienic.endures (h : s.Hygienic c) (he : s.Endures s')
    (hscope : ∀ σ sc', s'.registry.scope? σ = some sc' → (∃ sc, s.registry.scope? σ = some sc) ∨
      sc'.Rooted ∧ ∀ name v, sc'.values.lookup name = some v → s'.Lends sc' v)
    (hframe : ∀ f frame', s'.frame? f = some frame' →
      (∃ frame, s.frame? f = some frame) ∨
        s'.AtHome frame'.scope frame'.document ∧ s'.Outermost frame')
    (hstate : ∀ σ key st, s'.stateIn? σ key = some st →
      s.stateIn? σ key = some st ∨ s'.Accounts c σ key st) : s'.Hygienic c where
  rooted σ sc' hσ' := by
    rcases hscope σ sc' hσ' with ⟨sc, hσ⟩ | hnew
    · obtain ⟨sc'', hσ'', hplace, hvalues⟩ := he.registry.scope σ sc hσ
      cases hσ'.symm.trans hσ''
      exact (h.rooted σ sc hσ).of_place hplace hvalues
    · exact hnew.1
  lends σ sc' name v hσ' hv := by
    rcases hscope σ sc' hσ' with ⟨sc, hσ⟩ | hnew
    · obtain ⟨sc'', hσ'', hplace, hvalues⟩ := he.registry.scope σ sc hσ
      cases hσ'.symm.trans hσ''
      exact (h.lends σ sc name v hσ (hvalues ▸ hv)).endures he hplace
    · exact hnew.2 name v hv
  home f frame' hf' := by
    rcases hframe f frame' hf' with ⟨frame, hf⟩ | hnew
    · obtain ⟨frame'', hf'', -, hdoc, hscope'⟩ := he.frame f frame hf
      cases hf'.symm.trans hf''
      rw [hdoc, hscope']
      exact (h.home f frame hf).endures he
    · exact hnew.1
  outermost f frame' hf' := by
    rcases hframe f frame' hf' with ⟨frame, hf⟩ | hnew
    · obtain ⟨frame'', hf'', hp, -, hscope'⟩ := he.frame f frame hf
      cases hf'.symm.trans hf''
      exact (h.outermost f frame hf).endures he hp hscope'
    · exact hnew.2
  state σ key st hst := by
    rcases hstate σ key st hst with hold | hnew
    · exact (h.state σ key st hold).endures he
    · exact hnew

/-- A state is set to what it should be. -/
theorem Hygienic.setState (h : s.Hygienic c) (f : FrameId) (key : NodeKey) {st : NodeState}
    (hst : s.Accounts c (s.scopeOf f) key st) : (s.setState f key st).Hygienic c := by
  have he : s.Endures (s.setState f key st) := ⟨.refl _, fun f frame hf => ⟨frame, hf, rfl, rfl, rfl⟩⟩
  refine h.endures he (fun σ sc hσ => .inl ⟨sc, hσ⟩) (fun f frame hf => .inl ⟨frame, hf⟩) ?_
  intro σ k st' hst'
  rw [stateIn?_setState] at hst'
  split at hst'
  next heq =>
    obtain ⟨rfl, rfl⟩ := heq
    cases hst'
    exact .inr (hst.endures he)
  · exact .inl hst'

/-- A frame is opened in another one. -/
theorem Hygienic.push (h : s.Hygienic c) {frame : Frame} (hparent : frame.parent.isSome)
    (hhome : s.AtHome frame.scope frame.document) :
    Hygienic c { s with frames := s.frames.push frame } := by
  have he : s.Endures { s with frames := s.frames.push frame } := by
    refine ⟨.refl _, fun f fr hf => ⟨fr, ?_, rfl, rfl, rfl⟩⟩
    rw [frame?_push, if_neg (freshFrame_of_frame? hf), hf]
  refine h.endures he (fun σ sc hσ => .inl ⟨sc, hσ⟩) (fun f fr hf => ?_) fun _ _ _ hst => .inl hst
  rw [frame?_push] at hf
  split at hf
  · cases hf
    refine .inr ⟨hhome.endures he, fun hnone => ?_⟩
    rw [hnone] at hparent
    cases hparent
  · exact .inl ⟨fr, hf⟩

/-- A value that is found can be evaluated: the frame for it is at home. -/
theorem Hygienic.found (h : s.Hygienic c) {f : FrameId} {frame : Frame}
    (hf : s.frame? f = some frame) {name : String} {v : ValueId} {binding : Binding}
    (hv : s.registry.lookupValue frame.scope name = some v)
    (hb : s.registry.value? v = some binding) :
    ∃ outer sc, s.frame? binding.frame = some outer ∧ s.AtHome outer.scope frame.document ∧
      s.registry.scope? frame.scope = some sc ∧
      (s.registry.Domestic → frame.document = sc.document) := by
  obtain ⟨τ, tsc, hmem, hτ, hlookup⟩ := Registry.exists_of_lookupValue hv
  obtain ⟨binding', outer, hb', houter, hlent⟩ := h.lends τ tsc name v hτ hlookup
  cases hb.symm.trans hb'
  have hinner : tsc.parent.isSome := by
    cases hp : tsc.parent with
    | some p => rfl
    | none =>
      rw [(h.rooted τ tsc hτ hp).2] at hlookup
      cases hlookup
  obtain ⟨sc, hσ, hdoc⟩ := h.home f frame hf
  obtain ⟨osc, hosc, hodoc⟩ := h.home _ outer houter
  refine ⟨outer, sc, houter, ⟨osc, hosc, fun hd hop => ?_⟩, hσ, fun hd => ?_⟩
  · obtain ⟨heq, hp⟩ := hd.document_eq h.rooted hσ hmem hτ hinner
    rw [hdoc hd hp, heq]
    rcases hlent with hlent | horigin
    · rw [← hlent, hodoc hd hop]
    · exact hd τ _ tsc osc hτ horigin hosc hop
  · exact hdoc hd (hd.document_eq h.rooted hσ hmem hτ hinner).2

end

end Resolution

/-! ## Texts -/

/-- The step only looks at texts, in a frame that is there, and stays hygienic. -/
def Run.Neat {α : Type} (c : Collection) (f : FrameId) (m : Run α) : Prop :=
  ∀ s frame, s.Hygienic c → s.registry.Proper c → s.frame? f = some frame →
    After True m s fun _ s' => s.Calm s' ∧ s'.Hygienic c

namespace Run

variable {c : Collection} {f : FrameId} {α β : Type}

namespace Neat

theorem pure (a : α) : Neat c f (Pure.pure a) := fun s _ h _ _ => ⟨.refl s, h⟩

theorem bind {m : Run α} {k : α → Run β} (hm : Neat c f m) (hk : ∀ a, Neat c f (k a)) :
    Neat c f (m >>= k) := by
  intro s frame h hr hf
  rw [After.bind_iff]
  refine (hm s frame h hr hf).mono fun a s' ⟨h', hs'⟩ => ?_
  refine (hk a s' frame hs' (h'.registry ▸ hr) (h'.frame f frame hf)).mono fun _ _ ⟨h'', hs''⟩ => ?_
  exact ⟨h'.trans h'', hs''⟩

theorem of_get {k : Resolution → Run β} (hk : ∀ s, Neat c f (k s)) : Neat c f (get >>= k) := by
  intro s frame h hr hf
  rw [After.bind_iff]
  exact hk s s frame h hr hf

theorem fail {location : Location} {cause : Cause} : Neat c f (Run.fail location cause : Run α) :=
  fun _ _ _ _ _ => trivial

end Neat

/-- A value is looked up, and its text is handled in a frame that was opened for it. -/
theorem openValue_neat {location : Location} {cause : Cause} (name : String)
    {k : Binding → FrameId → Run α}
    (hk : ∀ binding inner s fr frame, s.Hygienic c → s.registry.Proper c → c.HasText binding.body →
      s.frame? f = some frame → s.frame? inner = some fr →
      s.StandsFor frame.scope name inner binding.body →
      After True (k binding inner) s fun _ s' => s.Calm s' ∧ s'.Hygienic c) :
    Neat c f (do
      let binding ← orFail location cause (← lookupValue f name)
      let inner ← staticFrame f binding
      k binding inner) := by
  intro s frame h hr hf
  unfold lookupValue
  simp only [bind_assoc, pure_bind]
  rw [After.bind_iff, After.get_iff, scopeOf_eq hf, After.bind_iff, orFail_iff]
  refine ⟨fun binding hbinding => ?_, fun _ => trivial⟩
  obtain ⟨v, hv, hb⟩ := Option.bind_eq_some_iff.1 hbinding
  obtain ⟨outer, sc, houter, hhome, hσ, hdoc⟩ := h.found hf hv hb
  unfold staticFrame
  simp only [bind_assoc]
  rw [After.bind_iff, After.get_iff, scopeOf_eq houter, documentOf_eq hf, After.bind_iff,
    pushFrame_iff]
  set opened : Frame := ⟨some f, frame.document, outer.scope, .static⟩ with hopened
  set s₁ : Resolution := { s with frames := s.frames.push opened } with hs₁
  have hcalm : s.Calm s₁ := .push s fun _ => rfl
  have hinner : s₁.frame? s.freshFrame = some opened :=
    (frame?_push (s := s) opened s.freshFrame).trans (if_pos rfl)
  refine (hk binding s.freshFrame s₁ opened frame (h.push rfl hhome) hr (hr.text v binding hb)
    (hcalm.frame f frame hf) hinner ?_).mono fun _ s' ⟨h', hs'⟩ => ⟨hcalm.trans h', hs'⟩
  exact ⟨v, binding.frame, sc, opened, outer, hv, hb, hσ, hinner, hcalm.frame _ outer houter, rfl,
    hdoc⟩

theorem Neat.reading : Reading fun f _ m => Neat c f m where
  pure := .pure
  bind := .bind
  of_get := .of_get
  fail _ := .fail
  openValue name _ _ hk := openValue_neat name fun binding inner s fr _ h hr _ _ hinner _ =>
    hk binding inner s fr h hr hinner

/-- A state that is not about a value or a block reference is set. -/
theorem setState_neat (key : NodeKey) (st : NodeState)
    (hst : ∀ s σ, Accounts c s σ key st) : Neat c f (setState f key st) :=
  fun s _ h _ _ => ⟨⟨rfl, rfl, rfl, fun _ _ hf => hf, rfl⟩, h.setState f key (hst s _)⟩

/-- The parts of a text that was written are registered, and those of its values. -/
theorem registerTextWithin_neat (fuel : Nat) (f : FrameId) {body : InlineText}
    (hb : c.HasText body) : Neat c f (registerTextWithin fuel f body) := by
  induction fuel generalizing f body with
  | zero => exact .fail
  | succ fuel ih =>
    unfold registerTextWithin
    refine Neat.reading.forM f body.parts fun part hpart => ?_
    rcases part with text | ⟨key, aspect, link⟩ | ⟨key, name⟩ | name | tag
    · exact .pure _
    · exact (Neat.reading.readLink f body.location link).bind fun _ =>
        setState_neat key _ fun _ _ => trivial
    · refine openValue_neat name fun binding inner s fr frame h hr htext hf hinner hvalue => ?_
      rw [After.bind_iff]
      -- the state is set before the text of the value is registered
      have hset : (s.setState f key (.value inner binding.body)).Hygienic c :=
        h.setState f key ⟨body, name, hb, hpart, scopeOf_eq hf ▸ hvalue⟩
      have hcalm : s.Calm (s.setState f key (.value inner binding.body)) :=
        ⟨rfl, rfl, rfl, fun _ _ hf => hf, rfl⟩
      refine (ih inner htext _ fr hset hr hinner).mono fun _ _ h' => ?_
      exact ⟨hcalm.trans h'.1, h'.2⟩
    · refine .of_get fun s => .bind (Neat.reading.orFail f ?_ _) fun _ => .pure _
      exact not_false
    · exact .pure _

theorem registerText_neat {body : InlineText} (hb : c.HasText body) :
    Neat c f (registerText f body) := .of_get fun _ => registerTextWithin_neat _ f hb

end Run

end Folio
