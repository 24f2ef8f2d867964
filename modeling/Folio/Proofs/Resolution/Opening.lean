import Folio.Proofs.Recursion
import Folio.Proofs.Resolution.Filling

/-!
# Scopes that registration opens

Registration opens a scope for every document, and one for each expansion that it comes to
(`Collection.Opens`). Apart from that it fills the scopes that are there. So a property of
registries holds in all states that registration comes to (`Collection.Reaches`) if documents have
it, and if it is kept by filling scopes and by opening one for an expansion
(`Collection.Sustains.reaches`).

In particular every scope that is not the one of a document was opened for an expansion, which tells
its name (`Collection.Described.traced`).
-/

namespace Folio

open Resolution

namespace Station

variable {x : Station}

/-- If an expansion is opened, it is the one that the station refers to. -/
theorem exists_expand {key : NodeKey} {location : Location} {block : String}
    {tag : Option String} {arguments : Table InlineText} {rest : List Node} {entry : BlockEntry}
    (hnodes : x.nodes = .expansion key location block tag arguments :: rest)
    (hentry : x.state.blockFor? x.frame block = some entry) {inner : FrameId} {body : List Node}
    {s' : Resolution} (h : Run.openExpansion x.frame location block tag arguments x.state =
      .ok (inner, body) s') :
    ∃ ref s, x.reference? = some ref ∧ ref.entry = entry ∧ x.state.Calm ref.state ∧
      x.expand ref ref.state = .ok inner s ∧ s.Fills s' := by
  rw [Run.openExpansion_of_blockFor? hentry] at h
  unfold Run.enterBlock at h
  cases hknown : arguments.keys.find? fun name => !entry.block.parameters.any (·.name = name) with
  | some name =>
    rw [hknown] at h
    cases h
  | none =>
    rw [hknown] at h
    obtain ⟨tag', s₁, htag, h⟩ := exists_of_bind_ok h
    obtain ⟨inner', s₂, hexpand, h⟩ := exists_of_bind_ok h
    obtain ⟨_, s₃, hbind, h⟩ := exists_of_bind_ok h
    cases h
    refine ⟨⟨location, entry, tag', s₁⟩, s₂, ?_, rfl, ?_, hexpand, ?_⟩
    · unfold reference?
      rw [hnodes]
      dsimp only
      rw [hentry, Option.bind_eq_bind, Option.bind_some, hknown]
      dsimp only
      rw [htag]
    · exact (Run.Calmly.reading.expansionTag x.frame location tag x.state).of_ok htag
    · exact (Run.bindParameters_filling x.frame inner location entry arguments s₂).of_ok hbind

end Station

/-- Documents that are registered one after the other lead to the next one. -/
theorem Run.registerUntil_of_split {depth : Nat} {ds : List Document} {s s₁ s₂ s₃ s' : Resolution}
    {pre post : Table DocumentInfo} {p : String × DocumentInfo}
    (h₁ : ds.forM addDocument s = .ok () s₁)
    (h₂ : (s₁.documents.forM fun (_, info) =>
      registerBlocks info.scope info.frame info.document.blocks : Run Unit) s₁ = .ok () s₂)
    (hsplit : pre ++ p :: post = s₁.documents)
    (h₃ : pre.forM (registerDocument depth) s₂ = .ok () s₃)
    (h₄ : p.2.document.settings.keys.forM (requestRange p.2.frame) s₃ = .ok () s') :
    registerUntil depth ds pre.length s = .ok (some p) s' := by
  refine (bind_of_ok h₁).trans ((bind_of_ok rfl).trans ((bind_of_ok h₂).trans ?_))
  rw [← hsplit, List.getElem?_append_right (Nat.le_refl _), Nat.sub_self]
  dsimp only [List.getElem?_cons_zero]
  rw [List.take_left]
  exact (bind_of_ok h₃).trans (bind_of_ok h₄)

namespace Collection

variable {c : Collection} {x y : Station} {ref : Reference} {P : Registry → Prop}

/-- The scope is opened for a reference that registration comes to. -/
structure Opens (c : Collection) (x : Station) (ref : Reference) (σ : ScopeId) : Prop where
  meets : c.Meets x
  reference : x.reference? = some ref
  expands : ∃ inner s, x.expand ref ref.state = .ok inner s ∧ s.scopeOf inner = σ

section

variable (hc : c.Described) (hx : c.Meets x)

include hc hx

/-- The nodes at a station are registered in a scope that is there. -/
theorem Meets.exists_scope? :
    ∃ sc, x.state.registry.scope? (x.state.scopeOf x.frame) = some sc := by
  obtain ⟨frame, hdue⟩ := (hx.tracked hc).due
  rw [scopeOf_eq hdue.opened]
  exact ⟨_, Array.getElem?_eq_getElem (hdue.proper.scope_lt x.frame frame hdue.opened)⟩

/-- The tag of a reference is read without opening a scope. -/
theorem Meets.calm (hr : x.reference? = some ref) :
    x.state.Calm ref.state ∧ ref.state.scopeOf x.frame = x.state.scopeOf x.frame := by
  obtain ⟨key, block, tag, arguments, rest, -, -, -, htag⟩ := Station.exists_of_reference? hr
  have hcalm : x.state.Calm ref.state :=
    (Run.Calmly.reading.expansionTag x.frame ref.location tag x.state).of_ok htag
  obtain ⟨frame, hdue⟩ := (hx.tracked hc).due
  exact ⟨hcalm, (scopeOf_eq (hcalm.frame _ frame hdue.opened)).trans (scopeOf_eq hdue.opened).symm⟩

/-- A reference is expanded in a scope that is there. -/
theorem Meets.exists_caller (hr : x.reference? = some ref) :
    ∃ sc, ref.state.registry.scope? (ref.state.scopeOf x.frame) = some sc := by
  obtain ⟨hcalm, hscope⟩ := hx.calm hc hr
  rw [hcalm.registry, hscope]
  exact hx.exists_scope? hc

theorem Meets.opensScope (hr : x.reference? = some ref) {inner : FrameId} {s : Resolution}
    (h : x.expand ref ref.state = .ok inner s) :
    Run.OpensScope ref.state x.frame ref.entry ref.tag inner s := by
  obtain ⟨sc, hsc⟩ := hx.exists_caller hc hr
  exact (Run.expandBlock_opensScope hsc ref.entry ref.tag ref.location).of_ok h

end

/-- An expansion that is opened gets a scope, which is filled then. -/
theorem Meets.opening (hc : c.Described) (hx : c.Meets x) {key : NodeKey} {location : Location}
    {block : String} {tag : Option String} {arguments : Table InlineText} {rest : List Node}
    {entry : BlockEntry} (hnodes : x.nodes = .expansion key location block tag arguments :: rest)
    (hentry : x.state.blockFor? x.frame block = some entry) {inner : FrameId} {body : List Node}
    {s' : Resolution} (h : Run.openExpansion x.frame location block tag arguments x.state =
      .ok (inner, body) s') :
    ∃ ref new r fr, c.Opens x ref ref.state.registry.freshScope ∧
      ref.state.registry = x.state.registry ∧
      ref.state.registry.Opened (ref.state.scopeOf x.frame)
        (ref.tag.getD (Run.scopeName ref.entry.block.tag))
        (Run.expansionName ref.state x.frame ref.entry ref.tag) new r ∧
      r.Fills s'.registry ∧ s'.frame? inner = some fr ∧
      fr.scope = ref.state.registry.freshScope := by
  obtain ⟨ref, s₁, hr, -, hcalm, hexpand, hfills⟩ := Station.exists_expand hnodes hentry h
  have hopens := hx.opensScope hc hr hexpand
  obtain ⟨new, r, hopened, hr'⟩ := hopens.opened
  obtain ⟨fr, hfr, hscope⟩ := hopens.inner
  obtain ⟨fr', hfr', hscope'⟩ := hfills.frame inner fr hfr
  refine ⟨ref, new, r, fr', ⟨hx, hr, inner, s₁, hexpand, ?_⟩, hcalm.registry, hopened,
    hr'.trans hfills.registry, hfr', hscope'.trans hscope⟩
  rw [scopeOf_eq hfr, hscope]

/-- Registration comes to a state: between documents that are added, between those whose blocks are
registered, or at a station. -/
inductive Reaches (c : Collection) : Resolution → Prop
  | adding {pre post : List Document} {s : Resolution}
    (hsplit : pre ++ post = c.documents.map Prod.snd)
    (h : pre.forM Run.addDocument c.start = .ok () s) : Reaches c s
  | announcing {pre post : Table DocumentInfo} {s₁ s : Resolution}
    (h₁ : (c.documents.map Prod.snd).forM Run.addDocument c.start = .ok () s₁)
    (hsplit : pre ++ post = s₁.documents)
    (h : (pre.forM fun (_, info) =>
      Run.registerBlocks info.scope info.frame info.document.blocks : Run Unit) s₁ = .ok () s) :
    Reaches c s
  | registering {x : Station} (h : c.Meets x) : Reaches c x.state

/-- What is kept by filling scopes and by opening one for a reference. -/
structure Sustains (c : Collection) (P : Registry → Prop) : Prop where
  fills : ∀ {r r' : Registry}, r.Fills r' → P r → P r'
  opens : ∀ {x : Station} {ref : Reference} {new : Scope} {r' : Registry},
    c.Opens x ref ref.state.registry.freshScope →
    ref.state.registry.Opened (ref.state.scopeOf x.frame)
      (ref.tag.getD (Run.scopeName ref.entry.block.tag))
      (Run.expansionName ref.state x.frame ref.entry ref.tag) new r' →
    P ref.state.registry → P r'

namespace Sustains

theorem filling (hs : c.Sustains P) {α : Type} {m : Run α} (hm : Run.Filling m)
    {s s' : Resolution} {a : α} (h : m s = .ok a s') (hP : P s.registry) : P s'.registry :=
  hs.fills ((hm s).of_ok h).registry hP

/-- A scope is opened where an expansion is registered. -/
theorem opening (hc : c.Described) (hs : c.Sustains P) {n : Nat} {around : List (FrameId × Block)}
    {s s' : Resolution} {f : FrameId} {key : NodeKey} {location : Location} {block : String}
    {tag : Option String} {arguments : Table InlineText} {rest : List Node}
    {result : FrameId × List Node}
    (hx : c.Meets ⟨n + 1, around, s, f, .expansion key location block tag arguments :: rest⟩)
    (h : Run.openExpansion f location block tag arguments s = .ok result s')
    (hP : P s.registry) : P s'.registry ∧ ∃ around, c.Meets
      ⟨n, around, s'.setState f key (.expansion result.1 result.2), result.1, result.2⟩ := by
  obtain ⟨inner, body⟩ := result
  obtain ⟨frame, hdue⟩ := (hx.tracked hc).due
  obtain ⟨entry, -, hentry, -⟩ := hdue.head.expansion.ends.of_ok h
  refine ⟨?_, _, hx.leads (.block hentry h)⟩
  obtain ⟨ref, new, r, fr, hopens, hregistry, hopened, hfills, -⟩ := hx.opening hc rfl hentry h
  exact hs.fills hfills (hs.opens hopens hopened (hregistry ▸ hP))

mutual

theorem node (hc : c.Described) (hs : c.Sustains P) {n : Nat}
    (hin : ∀ {around s f nodes s'}, c.Meets ⟨n, around, s, f, nodes⟩ →
      Run.registerWithin n f nodes s = .ok () s' → P s.registry → P s'.registry) :
    ∀ (node : Node) {around s f rest s'}, c.Meets ⟨n + 1, around, s, f, node :: rest⟩ →
      Run.registerNode (Run.registerWithin n) f node s = .ok () s' → P s.registry → P s'.registry
  | .text content => fun _ h => hs.filling (.of_calm (Run.registerText_calmly _ content)) h
  | .labeled heading body => fun hx h hP => by
    unfold Run.registerNode at h
    obtain ⟨inner, s₁, h₁, h₂⟩ := exists_of_bind_ok h
    exact nodes hc hs hin body (hx.leads (.body h₁)) h₂
      (hs.filling (Run.registerHeading_filling _ heading) h₁ hP)
  | .embedding key location link => fun _ h =>
    hs.filling (Run.registerEmbedding_filling _ key location link) h
  | .expansion key location block tag arguments => fun hx h hP => by
    unfold Run.registerNode at h
    obtain ⟨result, s₁, h₁, h⟩ := exists_of_bind_ok h
    obtain ⟨_, s₂, h₂, h₃⟩ := exists_of_bind_ok h
    obtain ⟨hP₁, around, hy⟩ := hs.opening hc hx h₁ hP
    cases h₂
    exact hin hy h₃ hP₁
  | .term key location tag text => fun _ h =>
    hs.filling (Run.registerTerm_filling _ key location tag text) h
  | .probe .. => fun hx _ _ => by
    obtain ⟨frame, hdue⟩ := (hx.tracked hc).due
    simpa [Node.asksAny, Node.asks] using hdue.head.fits.quiet

theorem nodes (hc : c.Described) (hs : c.Sustains P) {n : Nat}
    (hin : ∀ {around s f nodes s'}, c.Meets ⟨n, around, s, f, nodes⟩ →
      Run.registerWithin n f nodes s = .ok () s' → P s.registry → P s'.registry) :
    ∀ (nodes : List Node) {around s f s'}, c.Meets ⟨n + 1, around, s, f, nodes⟩ →
      Run.registerNodes (Run.registerWithin n) f nodes s = .ok () s' →
      P s.registry → P s'.registry
  | [] => fun _ h hP => by
    cases h
    exact hP
  | first :: rest => fun hx h hP => by
    unfold Run.registerNodes at h
    obtain ⟨_, s₁, h₁, h₂⟩ := exists_of_bind_ok h
    exact nodes hc hs hin rest (hx.leads (.behind h₁)) h₂ (node hc hs hin first hx h₁ hP)

end

variable (hc : c.Described) (hs : c.Sustains P)

include hc hs

/-- Registering what is next at a station keeps it. -/
theorem within {n : Nat} : ∀ {around s f nodes s'}, c.Meets ⟨n, around, s, f, nodes⟩ →
    Run.registerWithin n f nodes s = .ok () s' → P s.registry → P s'.registry := by
  induction n with
  | zero =>
    intro around s f nodes s' hx
    obtain ⟨frame, hdue⟩ := (hx.tracked hc).due
    exact absurd hdue.depth_pos (Nat.lt_irrefl 0)
  | succ n ih =>
    intro around s f nodes s' hx h
    exact hs.nodes hc ih nodes hx h

theorem leads (hx : c.Meets x) (hxy : x.Leads y) (hP : P x.state.registry) :
    P y.state.registry := by
  cases hxy with
  | behind h => exact hs.node hc (hs.within hc) _ hx h hP
  | body h => exact hs.filling (Run.registerHeading_filling _ _) h hP
  | block hentry h => exact (hs.opening hc hx h hP).1

/-- One more document is registered. -/
theorem document {s₁ s₂ s s' : Resolution} {pre post : Table DocumentInfo}
    {p : String × DocumentInfo}
    (h₁ : (c.documents.map Prod.snd).forM Run.addDocument c.start = .ok () s₁)
    (h₂ : (s₁.documents.forM fun (_, info) =>
      Run.registerBlocks info.scope info.frame info.document.blocks : Run Unit) s₁ = .ok () s₂)
    (hsplit : pre ++ p :: post = s₁.documents)
    (hpre : pre.forM (Run.registerDocument (Run.depthFor (c.documents.map Prod.snd))) s₂ =
      .ok () s)
    (h : Run.registerDocument (Run.depthFor (c.documents.map Prod.snd)) p s = .ok () s')
    (hP : P s.registry) : P s'.registry := by
  obtain ⟨_, s₃, h₃, h₄⟩ := exists_of_bind_ok h
  have hstart : c.start? pre.length = some
      ⟨Run.depthFor (c.documents.map Prod.snd), [], s₃, p.2.frame, p.2.document.nodes⟩ := by
    rw [start?, Run.registerUntil_of_split h₁ h₂ hsplit hpre h₃]
  exact hs.within hc (.of_start? hstart) h₄ (hs.filling (Run.requestRanges_filling _ _) h₃ hP)

/-- It holds where the nodes of a document begin if it does once all documents are there. -/
theorem starts (hdocs : After True ((c.documents.map Prod.snd).forM Run.addDocument) c.start
      fun _ s => P s.registry) (hx : c.Starts x) : P x.state.registry := by
  obtain ⟨k, p, s, hs', rfl⟩ := hx.exists
  obtain ⟨s₁, s₂, s₃, pre, post, h₁, h₂, hsplit, h₃, h₄⟩ := Run.exists_of_registerUntil hs'
  have hbegin : P s₂.registry := hs.filling (Run.registerAllBlocks_filling _) h₂ (hdocs.of_ok h₁)
  have hbefore : After True (pre.forM (Run.registerDocument
      (Run.depthFor (c.documents.map Prod.snd)))) s₂ fun _ s => P s.registry := by
    refine (After.forM_split
      (J := fun done _ s => done.forM (Run.registerDocument
        (Run.depthFor (c.documents.map Prod.snd))) s₂ = .ok () s ∧ P s.registry)
      (fun done q left s hpre ⟨hdone, hP⟩ => .trivial fun _ s' h => ⟨?_, ?_⟩)
      ⟨rfl, hbegin⟩).mono fun _ _ h => h.2
    · exact (congrFun List.forM_append s₂).trans ((bind_of_ok hdone).trans (bind_of_ok h))
    · have hall : done ++ q :: (left ++ p :: post) = s₁.documents := by
        rw [← List.cons_append, ← List.append_assoc, hpre, hsplit]
      exact hs.document hc h₁ h₂ hall hdone h hP
  exact hs.filling (Run.requestRanges_filling _ _) h₄ (hbefore.of_ok h₃)

theorem meets (hdocs : After True ((c.documents.map Prod.snd).forM Run.addDocument) c.start
      fun _ s => P s.registry) (hx : c.Meets x) : P x.state.registry := by
  obtain ⟨x₀, hstart, hreach⟩ := hx
  induction hreach with
  | refl => exact hs.starts hc hdocs hstart
  | tail hreach hxy ih => exact hs.leads hc ⟨x₀, hstart, hreach⟩ hxy ih

theorem reaches (hdocs : ∀ pre post, pre ++ post = c.documents.map Prod.snd →
      After True (pre.forM Run.addDocument) c.start fun _ s => P s.registry) {s : Resolution}
    (h : c.Reaches s) : P s.registry := by
  have hall := hdocs _ [] (List.append_nil _)
  cases h with
  | adding hsplit h => exact (hdocs _ _ hsplit).of_ok h
  | announcing h₁ hsplit h =>
    exact hs.filling (Run.registerAllBlocks_filling _) h (hall.of_ok h₁)
  | registering hx => exact hs.meets hc hall hx

end Sustains

/-! ## Where scopes come from -/

/-- A scope with this name was opened for the reference, in the scope `p`. If the name is numbered,
the number is among those that were given. -/
structure Yields (c : Collection) (x : Station) (ref : Reference) (r : Registry) (σ p : ScopeId)
    (name : String) : Prop where
  opens : c.Opens x ref σ
  caller : ref.state.scopeOf x.frame = p
  name_eq : name = Run.expansionName ref.state x.frame ref.entry ref.tag
  counted : ref.tag = none → ref.state.registry.count p (Run.scopeName ref.entry.block.tag) <
    r.count p (Run.scopeName ref.entry.block.tag)

theorem Yields.mono {r r' : Registry} {σ p : ScopeId} {name : String}
    (h : c.Yields x ref r σ p name) (hr : ∀ n, r.count p n ≤ r'.count p n) :
    c.Yields x ref r' σ p name :=
  { h with counted := fun htag => Nat.lt_of_lt_of_le (h.counted htag) (hr _) }

/-- Every scope is the one of a document, which has no name, or was opened for a reference. -/
structure Traced (c : Collection) (r : Registry) : Prop where
  document : ∀ d σ, r.documentScope? d = some σ →
    ∃ sc, r.scope? σ = some sc ∧ sc.parent = none ∧ sc.document = d
  top : ∀ σ sc, r.scope? σ = some sc → sc.parent = none →
    sc.name = "" ∧ r.documentScope? sc.document = some σ
  opened : ∀ σ sc p, r.scope? σ = some sc → sc.parent = some p →
    ∃ x ref, c.Yields x ref r σ p sc.name
  child : ∀ σ sc name τ, r.scope? σ = some sc → sc.children.lookup name = some τ →
    ∃ inner, r.scope? τ = some inner ∧ inner.parent = some σ ∧ inner.name = name

namespace Traced

variable {r r' : Registry}

/-- Scopes of documents stay what they are. -/
theorem document_of_stays (h : c.Traced r) (hr : r.Stays r') {d : String} {σ : ScopeId}
    (hd : r.documentScope? d = some σ) :
    ∃ sc, r'.scope? σ = some sc ∧ sc.parent = none ∧ sc.document = d := by
  obtain ⟨sc, hsc, hparent, hdoc⟩ := h.document d σ hd
  obtain ⟨sc', hsc', hplace⟩ := hr.scope σ sc hsc
  exact ⟨sc', hsc', (Scope.parent_eq_of_place hplace).trans hparent,
    (Scope.document_eq_of_place hplace).trans hdoc⟩

/-- So do scopes below others. -/
theorem child_of_stays (h : c.Traced r) (hr : r.Stays r') {σ τ : ScopeId} {sc : Scope}
    {name : String} (hσ : r.scope? σ = some sc) (hτ : sc.children.lookup name = some τ) :
    ∃ inner, r'.scope? τ = some inner ∧ inner.parent = some σ ∧ inner.name = name := by
  obtain ⟨inner, hinner, hparent, hname⟩ := h.child σ sc name τ hσ hτ
  obtain ⟨inner', hinner', hplace⟩ := hr.scope τ inner hinner
  exact ⟨inner', hinner', (Scope.parent_eq_of_place hplace).trans hparent,
    (Scope.name_eq_of_place hplace).trans hname⟩

theorem fills (h : c.Traced r) (hr : r.Fills r') : c.Traced r' where
  document d σ hd := h.document_of_stays hr.stays (hr.documentScope?_eq d ▸ hd)
  top σ sc' hσ hparent := by
    obtain ⟨sc, hsc, hplace⟩ := hr.symm.stays.scope σ sc' hσ
    rw [← Scope.name_eq_of_place hplace, ← Scope.document_eq_of_place hplace,
      hr.documentScope?_eq]
    exact h.top σ sc hsc ((Scope.parent_eq_of_place hplace).trans hparent)
  opened σ sc' p hσ hparent := by
    obtain ⟨sc, hsc, hplace⟩ := hr.symm.stays.scope σ sc' hσ
    obtain ⟨x, ref, hyields⟩ :=
      h.opened σ sc p hsc ((Scope.parent_eq_of_place hplace).trans hparent)
    rw [Scope.name_eq_of_place hplace] at hyields
    exact ⟨x, ref, hyields.mono fun n => (hr.count_eq p n).ge⟩
  child σ sc' name τ hσ hname := by
    obtain ⟨sc, hsc, hshell⟩ := hr.symm.exists_scope? hσ
    rw [← Scope.children_eq_of_shell hshell] at hname
    exact h.child_of_stays hr.stays hsc hname

theorem opens (hc : c.Described) (hopens : c.Opens x ref ref.state.registry.freshScope)
    {new : Scope} (ho : ref.state.registry.Opened (ref.state.scopeOf x.frame)
      (ref.tag.getD (Run.scopeName ref.entry.block.tag))
      (Run.expansionName ref.state x.frame ref.entry ref.tag) new r')
    (h : c.Traced ref.state.registry) : c.Traced r' := by
  obtain ⟨csc, hcsc⟩ := hopens.meets.exists_caller hc hopens.reference
  constructor
  case document =>
    intro d σ hd
    rw [Registry.documentScope?, ho.documents] at hd
    exact h.document_of_stays ho.stays hd
  case top =>
    intro σ sc' hσ hparent
    rcases ho.cases hσ with ⟨-, rfl⟩ | ⟨sc, hsc, hplace, -⟩
    · cases ho.parent.symm.trans hparent
    · rw [Scope.name_eq_of_place hplace, Scope.document_eq_of_place hplace,
        Registry.documentScope?, ho.documents]
      exact h.top σ sc hsc ((Scope.parent_eq_of_place hplace).symm.trans hparent)
  case opened =>
    intro σ sc' p hσ hparent
    rcases ho.cases hσ with ⟨rfl, rfl⟩ | ⟨sc, hsc, hplace, -⟩
    · obtain rfl := Option.some.inj (ho.parent.symm.trans hparent)
      refine ⟨x, ref, hopens, rfl, ho.name, fun htag => ?_⟩
      rw [htag] at ho
      exact (ho.count_eq hcsc).ge
    · obtain ⟨y, ref', hyields⟩ :=
        h.opened σ sc p hsc ((Scope.parent_eq_of_place hplace).symm.trans hparent)
      rw [← Scope.name_eq_of_place hplace] at hyields
      exact ⟨y, ref', hyields.mono fun n => ho.count_le p n⟩
  case child =>
    intro σ sc' name τ hσ hname
    have hold : ∀ sc, ref.state.registry.scope? σ = some sc → sc.children.lookup name = some τ →
        ∃ inner, r'.scope? τ = some inner ∧ inner.parent = some σ ∧ inner.name = name :=
      fun _ => h.child_of_stays ho.stays
    rcases ho.cases hσ with ⟨-, rfl⟩ | ⟨sc, hsc, -, hchildren⟩
    · rw [ho.children] at hname
      cases hname
    · rw [hchildren] at hname
      split at hname
      next hcaller =>
        rw [Table.lookup_put] at hname
        split at hname
        next hgiven =>
          obtain rfl := Option.some.inj hname
          exact ⟨new, ho.fresh, hcaller ▸ ho.parent, ho.name.trans hgiven.symm⟩
        · exact hold sc hsc hname
      · exact hold sc hsc hname

theorem sustains (hc : c.Described) : c.Sustains c.Traced where
  fills hr h := h.fills hr
  opens hopens ho h := h.opens hc hopens ho

/-- A document that is new has a scope without a name. -/
theorem addDocument (h : c.Traced r) {d : String} (hnew : r.documentScope? d = none) :
    c.Traced (r.addDocument d).2 := by
  obtain ⟨top, hadded⟩ := r.addDocument_documented d
  obtain ⟨hparent, -, hname, hdocument, -⟩ := hadded.bare
  have hcount : ∀ p n, r.count p n ≤ (r.addDocument d).2.count p n := by
    intro p n
    cases hp : r.scope? p with
    | none => simp [Registry.count, hp]
    | some sc => simp [Registry.count, hp, hadded.old hp]
  constructor
  case document =>
    intro e σ hσ
    by_cases he : e = d
    · rw [hadded.documents, if_pos he] at hσ
      obtain rfl := Option.some.inj hσ
      exact ⟨top, hadded.fresh, hparent, hdocument.trans he.symm⟩
    · rw [hadded.document_of_ne he] at hσ
      obtain ⟨sc, hsc, hrest⟩ := h.document e σ hσ
      exact ⟨sc, hadded.old hsc, hrest⟩
  case top =>
    intro σ sc hσ hp
    rcases hadded.cases hσ with ⟨rfl, rfl⟩ | hσ
    · exact ⟨hname, by rw [hadded.documents, if_pos hdocument]⟩
    · obtain ⟨hn, hdoc⟩ := h.top σ sc hσ hp
      exact ⟨hn, hadded.document_old hnew hdoc⟩
  case opened =>
    intro σ sc p hσ hp
    rcases hadded.cases hσ with ⟨rfl, rfl⟩ | hσ
    · cases hparent.symm.trans hp
    · obtain ⟨x, ref, hyields⟩ := h.opened σ sc p hσ hp
      exact ⟨x, ref, hyields.mono (hcount p)⟩
  case child =>
    intro σ sc name τ hσ hchild
    rcases hadded.cases hσ with ⟨rfl, rfl⟩ | hσ
    · have hchildren : sc.children = [] := by
        have hsc := hadded.fresh
        simp [Registry.addDocument, Registry.newScope, Registry.scope?] at hsc
        rw [← hsc]
      rw [hchildren] at hchild
      cases hchild
    · obtain ⟨inner, hinner, hrest⟩ := h.child σ sc name τ hσ hchild
      exact ⟨inner, hadded.old hinner, hrest⟩

/-- The documents that are added have different paths. -/
theorem addDocuments (hc : c.Described) {pre post : List Document}
    (hsplit : pre ++ post = c.documents.map Prod.snd) :
    After True (pre.forM Run.addDocument) c.start fun _ s => c.Traced s.registry := by
  have hsorted := hc.sorted_paths
  rw [← hsplit] at hsorted
  have hstart : c.Traced c.start.registry := by
    constructor <;> simp [Collection.start, Registry.scope?, Registry.documentScope?]
  refine (After.forM_split (J := fun done _ s => c.Traced s.registry ∧
    ∀ d σ, s.registry.documentScope? d = some σ → d ∈ done.map Document.path)
    ?_ ⟨hstart, fun d σ hd => by cases hd⟩).mono fun _ _ h => h.1
  rintro done d left s hdone ⟨h, hmem⟩
  have hnew : s.registry.documentScope? d.path = none := by
    refine Option.eq_none_iff_forall_ne_some.2 fun σ hσ => ?_
    obtain ⟨e, he, heq⟩ := List.mem_map.1 (hmem d.path σ hσ)
    rw [← hdone] at hsorted
    have hlt := (List.pairwise_append.1 (List.pairwise_append.1 hsorted).1).2.2 e he d (by simp)
    exact String.lt_irrefl d.path (heq ▸ hlt)
  refine show c.Traced (s.registry.addDocument d.path).2 ∧ _ from ⟨h.addDocument hnew, ?_⟩
  intro e σ hσ
  obtain ⟨top, hadded⟩ := s.registry.addDocument_documented d.path
  replace hσ : (s.registry.addDocument d.path).2.documentScope? e = some σ := hσ
  rw [List.map_append, List.mem_append]
  by_cases he : e = d.path
  · exact .inr (by simp [he])
  · rw [hadded.document_of_ne he] at hσ
    exact .inl (hmem e σ hσ)

end Traced

/-- In all states that registration comes to, scopes come from documents and references. -/
theorem Described.traced (hc : c.Described) {s : Resolution} (h : c.Reaches s) :
    c.Traced s.registry :=
  (Traced.sustains hc).reaches hc (fun _ _ hsplit => Traced.addDocuments hc hsplit) h

end Collection

end Folio
