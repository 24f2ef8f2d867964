import Folio.Proofs.Anchors
import Folio.Proofs.Resolution.Equipped
import Folio.Proofs.Resolution.Identified

/-!
# Anchors of labeled nodes without tags

A labeled node has its id as an anchor, written out. Labeled nodes without tags have no other one,
and then registration fails for no anchor that is taken (`Collection.Gathered.registerAll_anchors`),
if no label type of the documents is written like an id of another one.

This is needed. The id of an `a` inside the first `a` is written `a-1-1`, and so is that of the first
`a-1`: these are different ids, but the same anchor (`Collection.not_forall_registerAll_anchors`).
-/

namespace Folio

open Resolution

/-- Does an error say that an id, or an anchor of a labeled node, is taken? -/
def ResolveError.TakenId : ResolveError → Prop
  | located _ (.duplicate .anchor ..) => True
  | located _ (.duplicateId ..) => True
  | _ => False

theorem ResolveError.not_takenId {e : ResolveError} (h : ¬e.TakenAnchor) (h' : e.External) :
    ¬e.TakenId := by
  unfold TakenId
  split
  · exact fun _ => h trivial
  · exact fun _ => h' trivial
  · exact not_false

namespace Collection

/-- A labeled node of the documents has the type. -/
def LabelType (c : Collection) (typ : String) : Prop :=
  ∃ h, c.stock.heading h ∧ h.typeIn c.options = typ

/-- No labeled node has a tag, and no label type is written like an id of another one. -/
structure Automatic (c : Collection) : Prop where
  untagged : ∀ h, c.stock.heading h → h.tag = none
  unmistakable : Unmistakable c.LabelType

/-- Types without dashes are not written like ids. -/
theorem Automatic.of_forall {c : Collection} (h : ∀ p ∈ c.documents, ∀ h ∈ p.2.headings,
    h.tag = none ∧ '-' ∉ (h.typeIn c.options).toList) : c.Automatic where
  untagged := by
    rintro heading ⟨path, d, hd, hh⟩
    exact (h _ hd heading hh).1
  unmistakable := by
    rintro t t' - ⟨heading, ⟨path, d, hd, hh⟩, rfl⟩ ids - heq
    exact (h _ hd heading hh).2 (heq ▸ LabelId.dash_mem_text _)

end Collection

namespace Run

variable {c : Collection} {n : Nat} {s : Resolution} {f : FrameId} {frame : Frame}

/-- Nodes are due in a frame that lies in its document, with all label types counted around it. -/
structure Ready (c : Collection) (n : Nat) (s : Resolution) (f : FrameId) (frame : Frame)
    (nodes : List Node) : Prop extends Due c n s f frame nodes where
  options : s.options = c.options
  founded : s.Founded c.stock
  housed : s.Housed f
  accounted : s.Accounted f

namespace Ready

variable {node : Node} {rest : List Node}

theorem head (h : Ready c n s f frame (node :: rest)) : Ready c n s f frame [node] where
  toDue := h.toDue.head
  options := h.options
  founded := h.founded
  housed := h.housed
  accounted := h.accounted

/-- The nodes behind one that was registered. -/
theorem tail (h : Ready c n s f frame (node :: rest)) {s₁ : Resolution}
    (hfine : Fine c.stock s₁) {vs : List Visit} (h₁ : s.Furnishes c frame.scope node.uses vs s₁)
    (he : s.Enrolls c.stock s₁) : ∃ frame₁, Ready c n s₁ f frame₁ rest := by
  obtain ⟨frame₁, -, hdue⟩ := h.toDue.tail hfine h₁
  exact ⟨frame₁, hdue, h₁.furthers.options.trans h.options, he.founded h.founded,
    he.housed h.founded h.housed, h.accounted.of_alike h₁.proper.ordered he.frame h.opened⟩

/-- The nodes inside a labeled node. -/
theorem heading (hc : c.Described) {heading : Heading} {body : List Node}
    (h : Ready c n s f frame [.labeled heading body]) :
    After True (registerHeading f heading) s fun inner s' =>
      ∃ fr, Ready c n s' inner fr body := by
  have hk : c.stock.key heading.key := fits_key h.fits (by simp [Node.uses])
  have hfree : s.stateIn? frame.scope heading.key = none :=
    h.vacant heading.key (by simp [Node.usesAll, Node.uses])
  have hfixed : s.fixed? frame.scope heading.key = none := by rw [fixed?, hfree]; rfl
  refine (((h.toDue.heading hc).ends.after).and
    ((registerHeading_enrolls h.founded h.housed heading).and
      (registerHeading_spec h.fine h.opened hk h.fits.heading h.fits.title hfixed))).mono ?_
  rintro inner s' ⟨⟨entry, fr, -, hfurnish, -, -, -, hdue⟩, ⟨he, hi⟩, _, hheaded⟩
  have hopt := hfurnish.furthers.options.trans h.options
  have ha := h.accounted.of_alike hdue.proper.ordered he.frame h.opened
  obtain ⟨outer, fr', houter, hfr', hparent, hdoc, -⟩ := hheaded.inside
  exact ⟨fr, hdue, hopt, he.founded h.founded, hi, ha.inside hdue.proper.ordered hfr' hparent
    (hdoc.trans (documentOf_eq houter).symm)⟩

/-- The nodes of a block that is expanded. -/
theorem expansion {key : NodeKey} {location : Location} {block : String} {tag : Option String}
    {arguments : Table InlineText}
    (h : Ready c (n + 1) s f frame [.expansion key location block tag arguments]) :
    After True (openExpansion f location block tag arguments) s fun result s' =>
      ∃ fr, Ready c n (s'.setState f key (.expansion result.1 result.2)) result.1 fr result.2 := by
  refine (h.toDue.expansion.ends.after.and
    ((openExpansion_enrolls h.founded h.housed location block tag arguments).and
      (openExpansion_spec f location block tag (fun _ _ ha => h.fits.arguments ha) h.fine
        h.opened))).mono ?_
  rintro ⟨inner, body⟩ s' ⟨⟨entry, fr, -, -, -, -, -, hfurnish, -, -, hdue⟩, ⟨he, hi, -⟩, -,
    hopened, -⟩
  have hopt := hfurnish.furthers.options.trans h.options
  have hcalm := (setState_calmly f key (.expansion inner body) s').of_ok rfl
  have he' : s.Enrolls c.stock (s'.setState f key (.expansion inner body)) :=
    he.trans (.of_calm hcalm)
  have ha := h.accounted.of_alike hdue.proper.ordered he'.frame h.opened
  obtain ⟨fr', hfr', -, hdoc, hparent, -⟩ := hopened.frame
  obtain ⟨outer, houter, hdoc', -⟩ := he'.frame f frame h.opened
  refine ⟨fr, hdue, hopt, he'.founded h.founded,
    Enrolls.housed (.of_calm hcalm) (he.founded h.founded) hi,
    ha.inside hdue.proper.ordered (show frame? _ inner = some fr' from hfr') hparent ?_⟩
  rw [hdoc, documentOf_of_alike he'.frame h.opened]

end Ready

/-! ## Nodes -/

/-- Registering the nodes fails for no anchor that is taken, and leaves labeled nodes known by their
ids. -/
def Identifying (c : Collection) (n : Nat) (register : FrameId → Run Unit) (nodes : List Node) :
    Prop :=
  ∀ f s frame, Ready c n s f frame nodes → s.Identified c.LabelType →
    Ends (¬ResolveError.TakenAnchor ·) (register f) s fun _ s' => s'.Identified c.LabelType

/-- What is known of registering the nodes of blocks. -/
structure Entering (c : Collection) (n : Nat) (enter : FrameId → List Node → Run Unit) : Prop where
  registering : Registering c.stock enter
  secures : ∀ nodes, Secures c n (fun f => enter f nodes) nodes
  enrolling : ∀ f nodes, Node.Fits c.stock nodes → Enrolling c.stock f (enter f nodes)
  identifying : ∀ nodes, Identifying c n (fun f => enter f nodes) nodes

/-- A step that registers no labeled node. -/
theorem Modest.identified {P : String → Prop} {m : Run Unit} (hm : Modest m)
    (h : s.Identified P) :
    Ends (¬ResolveError.TakenAnchor ·) m s fun _ s' => s'.Identified P :=
  (hm s).mono fun _ _ hs => h.of_sameIds hs

variable {enter : FrameId → List Node → Run Unit}

mutual

theorem registerNode_identifying (hc : c.Described) (ha : c.Automatic) (he : Entering c n enter) :
    ∀ node : Node, Identifying c (n + 1) (fun f => registerNode enter f node) [node]
  | .text content => fun f _ _ _ hi => (registerText_modest f content).identified hi
  | .labeled heading body => fun f s frame h hi => by
    dsimp only
    unfold registerNode
    rw [Ends.bind_iff]
    have hwritten := h.fits.heading
    have htyp : c.LabelType (heading.typeIn s.options) := by
      rw [h.options]
      exact ⟨heading, hwritten, rfl⟩
    refine ((registerHeading_identified ha.unmistakable h.founded h.housed h.accounted hi
      (ha.untagged heading hwritten) htyp).inspect (h.heading hc)).mono ?_
    rintro inner s₁ ⟨⟨fr, hready⟩, hi₁⟩
    exact registerNodes_identifying hc ha he body inner s₁ fr hready hi₁
  | .embedding key location written => fun f _ _ h hi =>
    registerEmbedding_identified h.accounted hi key location written
  | .expansion key location block tag arguments => fun f s frame h hi => by
    dsimp only
    unfold registerNode
    rw [Ends.bind_iff]
    refine (((openExpansion_modest f location block tag arguments) s).inspect h.expansion).mono ?_
    rintro ⟨inner, body⟩ s₁ ⟨⟨fr, hready⟩, hsame⟩
    dsimp only at hready ⊢
    rw [Ends.bind_iff]
    refine he.identifying body inner _ fr hready ?_
    exact (hi.of_sameIds hsame).of_sameIds (.of_eq rfl rfl)
  | .term key location tag content => fun f _ _ _ hi =>
    (registerTerm_modest f key location tag content).identified hi
  | .probe key location questions body => fun f _ _ h _ => by
    simpa [Node.asksAny, Node.asks] using h.fits.quiet

theorem registerNodes_identifying (hc : c.Described) (ha : c.Automatic)
    (he : Entering c n enter) : ∀ nodes : List Node,
    Identifying c (n + 1) (fun f => registerNodes enter f nodes) nodes
  | [] => fun _ _ _ _ hi => hi
  | node :: rest => fun f s frame h hi => by
    dsimp only
    unfold registerNodes
    rw [Ends.bind_iff]
    have hdue := h.toDue.head
    refine ((registerNode_identifying hc ha he node f s frame h.head hi).inspect
      ((registerNode_concludes hc he.registering he.secures node f s frame hdue).ends.after.and
        (registerNode_enrolling he.enrolling node f hdue.fits s h.founded h.housed))).mono ?_
    rintro _ s₁ ⟨⟨⟨hfine, vs, -, hfurnish⟩, hen⟩, hi₁⟩
    obtain ⟨frame₁, hready⟩ := h.tail hfine hfurnish hen
    exact registerNodes_identifying hc ha he rest f s₁ frame₁ hready hi₁

end

theorem registerWithin_identifying (hc : c.Described) (ha : c.Automatic) (fuel : Nat)
    (nodes : List Node) : Identifying c fuel (fun f => registerWithin fuel f nodes) nodes := by
  induction fuel generalizing nodes with
  | zero =>
    intro f s frame h
    exact absurd h.toDue.depth_pos (Nat.lt_irrefl 0)
  | succ fuel ih =>
    exact registerNodes_identifying hc ha ⟨registering_registerWithin fuel,
      registerWithin_concludes hc fuel, registerWithin_enrolling fuel, ih⟩ nodes

end Run

/-! ## Documents -/

/-- Documents were added, each with a frame and a scope, and nothing was registered in them. -/
structure Known.Empty (ds : List Document) (s : Resolution) : Prop where
  entries : s.registry.entries = #[]
  anchors : ∀ σ sc, s.registry.scope? σ = some sc → sc.anchors = []
  frame : ∀ f frame, s.frame? f = some frame → frame.kind = .document [] ∧
    frame.document ∈ ds.map Document.path
  unique : ∀ f g frame frame', s.frame? f = some frame → s.frame? g = some frame' →
    frame.document = frame'.document → f = g

namespace Known.Empty

variable {ds : List Document} {d : Document} {s : Resolution}

theorem start (c : Collection) : Known.Empty [] c.start where
  entries := rfl
  anchors := by simp [Collection.start, Registry.scope?]
  frame := by simp [Collection.start, frame?]
  unique := by simp [Collection.start, frame?]

theorem withDocument (h : Known.Empty ds s) (hd : ∀ e ∈ ds, e.path < d.path) :
    Known.Empty (ds ++ [d]) (s.withDocument d) := by
  have hnew : ∀ f frame, s.frame? f = some frame → frame.document ≠ d.path := by
    intro f frame hf heq
    obtain ⟨e, he, hpath⟩ := List.mem_map.1 (h.frame f frame hf).2
    exact String.lt_irrefl d.path ((hpath.trans heq) ▸ hd e he)
  have hcases : ∀ f frame, (s.withDocument d).frame? f = some frame →
      (f = s.freshFrame ∧ frame.kind = .document [] ∧ frame.document = d.path) ∨
      s.frame? f = some frame := by
    intro f frame hf
    rw [frame?_withDocument] at hf
    split at hf
    next heq =>
      cases hf
      exact .inl ⟨heq, rfl, rfl⟩
    · exact .inr hf
  constructor
  case entries => exact h.entries
  case anchors =>
    intro σ sc hσ
    obtain ⟨top, hadded⟩ := s.registry.addDocument_documented d.path
    rcases hadded.cases hσ with ⟨-, rfl⟩ | hσ
    · exact hadded.bare.2.2.2.2
    · exact h.anchors σ sc hσ
  case frame =>
    intro f frame hf
    rw [List.map_append, List.mem_append]
    obtain ⟨-, hk, hdoc⟩ | hf := hcases f frame hf
    · exact ⟨hk, .inr (by simp [hdoc])⟩
    · exact (h.frame f frame hf).imp_right .inl
  case unique =>
    intro f g frame frame' hf hg heq
    obtain ⟨rfl, -, hdoc⟩ | hf := hcases f frame hf <;>
      obtain ⟨rfl, -, hdoc'⟩ | hg := hcases g frame' hg
    · rfl
    · exact (hnew g frame' hg (heq ▸ hdoc)).elim
    · exact (hnew f frame hf (heq.trans hdoc')).elim
    · exact h.unique f g frame frame' hf hg heq

/-- No id was given out, and all frames are at the top. -/
theorem identified (h : Known.Empty ds s) (P : String → Prop) : s.Identified P := by
  have hcounted : ∀ f typ d, s.ledger.document? f typ = some d →
      ∃ frame, s.frame? f = some frame ∧ frame.document = d ∧
        (s.ledger.tally f typ).outer = [] := by
    intro f typ d hf
    obtain ⟨frame, hframe, hdoc⟩ := Option.bind_eq_some_iff.1 hf
    refine ⟨frame, hframe, ?_, ?_⟩
    · split at hdoc
      · exact Option.some.inj hdoc
      · cases hdoc
    · have htally : s.ledger.tally f typ = {} := by
        change s.tally f typ = {}
        rw [tally_of_frame? hframe, (h.frame f frame hframe).1]
        rfl
      rw [htally]
  have hnone : ∀ i, s.registry.entryAt? i = none := by simp [Registry.entryAt?, h.entries]
  constructor
  case sound =>
    constructor
    · intro d typ f g hf hg _
      obtain ⟨frame, hframe, hdoc, -⟩ := hcounted f typ d hf
      obtain ⟨frame', hframe', hdoc', -⟩ := hcounted g typ d hg
      exact h.unique f g frame frame' hframe hframe' (hdoc.trans hdoc'.symm)
    · intro d typ f hf
      obtain ⟨-, -, -, houter⟩ := hcounted f typ d hf
      exact .inl houter
  case entry =>
    intro i e he
    cases (hnone i).symm.trans he
  case unique =>
    intro i j e e' he
    cases (hnone i).symm.trans he
  case anchor =>
    intro σ sc t i hσ ht
    rw [h.anchors σ sc hσ] at ht
    cases ht

end Known.Empty

namespace Run

variable {c : Collection}

theorem addDocuments_empty {ds : List Document} (hd : ds.Pairwise fun d e => d.path < e.path) :
    Ends (¬ResolveError.TakenAnchor ·) (ds.forM addDocument) c.start
      fun _ s => Known.Empty ds s := by
  refine Ends.forM_split (J := fun pre _ s => Known.Empty pre s) ?_ (.start c)
  rintro pre d post s rfl h
  exact h.withDocument fun e he => (List.pairwise_append.1 hd).2.2 e he d (by simp)

/-- What is known of a document before its nodes are registered, and stays. -/
structure Awaiting (c : Collection) (s₁ : Resolution) (pre post : Table DocumentInfo)
    (s : Resolution) : Prop where
  partway : Partway c s₁ pre post s
  enrolls : s₁.Enrolls c.stock s
  identified : s.Identified c.LabelType

section

variable {s₁ s : Resolution} {pre post : Table DocumentInfo} {p : String × DocumentInfo}
  (hc : c.Described) (hk : Known c.options (c.documents.map Prod.snd) s₁) (hs₁ : s₁.Proper c)
  (hf₁ : s₁.Founded c.stock)
  (hhoused : ∀ p ∈ s₁.documents, s₁.Housed p.2.frame ∧ s₁.scopeOf p.2.frame = p.2.scope)

include hc hk hs₁ hf₁ hhoused

/-- The blocks of the documents are registered before any of their nodes. -/
theorem registerAllBlocks_awaiting (hne : s₁.documents ≠ []) (hi : s₁.Identified c.LabelType) :
    Ends (¬ResolveError.TakenAnchor ·) (s₁.documents.forM fun (_, info) =>
      registerBlocks info.scope info.frame info.document.blocks) s₁ fun _ s =>
        Awaiting c s₁ [] s₁.documents s := by
  have hmodest : Modest (s₁.documents.forM fun (_, info) =>
      registerBlocks info.scope info.frame info.document.blocks) :=
    Modest.reading.forM ⟨0⟩ _ fun p _ => registerBlocks_modest _ _ _
  refine ((hmodest s₁).inspect ((blocks_concludes hc hk hs₁ hne).ends.after.and
    (registerAllBlocks_enrolls hf₁ (fun p hp => hc.fits (hk.mem hc hp)) hhoused))).mono ?_
  rintro _ s ⟨⟨hpartway, he⟩, hsame⟩
  exact ⟨hpartway, he, hi.of_sameIds hsame⟩

variable (hsplit : pre ++ p :: post = s₁.documents) (h : Awaiting c s₁ pre (p :: post) s)
  {depth : Nat} (hdepth : c.blockNames.dedup.length < depth)

include hsplit h hdepth

/-- The nodes of a document are registered once the ranges that it sets are asked for. -/
theorem registerDocument_identified (ha : c.Automatic) :
    Ends (¬ResolveError.TakenAnchor ·) (registerDocument depth p) s
      fun _ s' => s'.Identified c.LabelType := by
  have hp : p ∈ s₁.documents := by simp [← hsplit]
  have hsettings : Modest (p.2.document.settings.keys.forM (requestRange p.2.frame)) :=
    Modest.reading.forM p.2.frame _ fun typ _ => requestRange_modest p.2.frame typ
  have henrolling : Enrolling c.stock p.2.frame
      (p.2.document.settings.keys.forM (requestRange p.2.frame)) :=
    .forM _ fun typ _ => requestRange_enrolling typ
  have hhoused₁ := (hhoused p hp).1
  unfold registerDocument
  rw [Ends.bind_iff]
  refine ((hsettings s).inspect ((Partway.settings hc hk hsplit h.partway hdepth).ends.after.and
    (henrolling s (h.enrolls.founded hf₁) (h.enrolls.housed hf₁ hhoused₁)))).mono ?_
  rintro _ s₂ ⟨⟨⟨-, hfur, -, -, frame, -, -, hdue⟩, he⟩, hsame⟩
  have he₂ := h.enrolls.trans he
  obtain ⟨W, -, hfurnishing⟩ := h.partway
  obtain ⟨top, htop, -⟩ := (hk.opened p hp).frame
  refine registerWithin_identifying hc ha depth _ _ s₂ frame ⟨hdue, ?_, he₂.founded hf₁,
    he₂.housed hf₁ hhoused₁, ?_⟩ (h.identified.of_sameIds hsame)
  · rw [hfur.options, hfurnishing.furthers.options, hk.options]
  · exact ((hk.opened p hp).accounted hs₁.ordered).of_alike hdue.proper.ordered he₂.frame htop

theorem registerDocument_awaiting (ha : c.Automatic) :
    Ends (¬ResolveError.TakenAnchor ·) (registerDocument depth p) s
      fun _ s' => Awaiting c s₁ (pre ++ [p]) post s' := by
  have hp : p ∈ s₁.documents := by simp [← hsplit]
  refine ((registerDocument_identified hc hk hs₁ hf₁ hhoused hsplit h hdepth ha).inspect
    ((Partway.document hc hk hsplit h.partway hdepth).ends.after.and
      (registerDocument_enrolling depth (hc.fits (hk.mem hc hp)) s (h.enrolls.founded hf₁)
        (h.enrolls.housed hf₁ (hhoused p hp).1)))).mono ?_
  rintro _ s' ⟨⟨hpartway, he⟩, hi⟩
  exact ⟨hpartway, h.enrolls.trans he, hi⟩

end

/-- Registering documents fails for no anchor that is taken. -/
theorem registerAll_identified (hg : c.Gathered) (ha : c.Automatic) :
    Ends (¬ResolveError.TakenAnchor ·) (registerAll (c.documents.map Prod.snd)) c.start
      fun _ s => s.Identified c.LabelType := by
  have hc := hg.described
  have habs : ∀ d ∈ c.documents.map Prod.snd, Path.isAbs d.path = true := fun d hd =>
    hg.isAbs _ (hc.paths_eq ▸ List.mem_map_of_mem hd)
  rw [registerAll_eq, registerAllWithin, Ends.bind_iff]
  refine ((addDocuments_empty hc.sorted_paths).inspect
    ((addDocuments_concludes (c := c) _).ends.after.and ((addDocuments_spec c hc.sorted_paths).and
      (addDocuments_enrolled c habs hc.sorted_paths)))).mono ?_
  rintro _ s₁ ⟨⟨hs₁, hk, he⟩, hempty⟩
  have hi := hempty.identified c.LabelType
  rw [Ends.bind_iff, Ends.get_iff]
  dsimp only
  rw [Ends.bind_iff]
  by_cases hnil : s₁.documents = []
  · rw [hnil]
    exact hi
  have hf₁ := he.founded hk (K := c.stock)
  have hhoused := he.housed hk hc
  refine (registerAllBlocks_awaiting hc hk hs₁ hf₁ hhoused hnil hi).mono fun _ s₂ h₂ => ?_
  refine (Ends.forM_split (J := fun pre post s => Awaiting c s₁ pre post s)
    (fun pre p post s hsplit h => ?_) h₂).mono fun _ s h => h.identified
  exact registerDocument_awaiting hc hk hs₁ hf₁ hhoused hsplit h length_blockNames_lt_depthFor ha

end Run

namespace Collection

variable {c : Collection}

/-- If no labeled node has a tag, and no label type is written like an id of another one, then
registration fails for no id and no anchor that is taken, and the labeled nodes of a document have
ids that are written differently. -/
theorem Gathered.registerAll_anchors (hg : c.Gathered) (ha : c.Automatic) :
    Ends (¬ResolveError.TakenId ·) (Run.registerAll (c.documents.map Prod.snd)) c.start
      fun _ s => ∀ i j e e', s.registry.entryAt? i = some e → s.registry.entryAt? j = some e' →
        e.document = e'.document → e.id.text = e'.id.text → i = j := by
  have hi := Run.registerAll_identified hg ha
  have hexternal := hg.described.registerAll_ends
  cases hr : Run.registerAll (c.documents.map Prod.snd) c.start with
  | error e s' =>
    have h := ResolveError.not_takenId (hi.of_error hr) (hexternal.of_error hr)
    simpa [Ends, hr] using h
  | ok _ s =>
    have h := hi.of_ok hr
    have hdistinct : ∀ i j e e', s.registry.entryAt? i = some e → s.registry.entryAt? j = some e' →
        e.document = e'.document → e.id.text = e'.id.text → i = j := by
      intro i j e e' he he' hdoc htext
      obtain ⟨ht, hallotted⟩ := h.entry i e he
      obtain ⟨ht', hallotted'⟩ := h.entry j e' he'
      exact h.unique i j e e' he he' hdoc (ha.unmistakable.eq_of_text_eq ht ht'
        hallotted.path_ne_nil hallotted'.path_ne_nil htext)
    simpa [Ends, hr] using hdistinct

/-- A block with a figure in a figure, which is expanded inside a section and behind it. -/
def expandedTwice : Collection := single "/doc" {
  blocks := [{
    tag := "demo", nodes := [
      .subRange "figure" none "F" none [.subRange "figure" none "G" none []]] }]
  nodes := [.heading none "A" [.expansion "demo" none []], .expansion "demo" none []] }

/-- The figures of all expansions are counted in one sequence. -/
theorem registerAll_anchors_expandedTwice : expandedTwice.Gathered ∧ expandedTwice.Automatic ∧
    ∃ s, Run.registerAll (expandedTwice.documents.map Prod.snd) expandedTwice.start = .ok () s ∧
      s.registry.entries.toList.map (·.id.text) =
        ["section-1", "figure-1", "figure-1-1", "figure-2", "figure-2-1"] ∧
      ∀ i j e e', s.registry.entryAt? i = some e → s.registry.entryAt? j = some e' →
        e.document = e'.document → e.id.text = e'.id.text → i = j := by
  have hg : expandedTwice.Gathered := single_gathered (by decide +kernel) _
  have ha : expandedTwice.Automatic := .of_forall (by decide +kernel)
  obtain ⟨_, s, hs, htexts⟩ := exists_ok_and (P := fun _ s =>
      s.registry.entries.toList.map (·.id.text) =
        ["section-1", "figure-1", "figure-1-1", "figure-2", "figure-2-1"])
    (m := Run.registerAll (expandedTwice.documents.map Prod.snd)) (s := expandedTwice.start)
    (by decide +kernel)
  -- the documents no longer matter
  generalize expandedTwice = c at hg ha hs ⊢
  exact ⟨hg, ha, s, hs, htexts, (hg.registerAll_anchors ha).of_ok hs⟩

/-- A node of a type with one of the same type inside, and a node of another type behind it. -/
def twoTypes (typ typ' : String) : Collection := single "/a" {
  nodes := [.subRange typ none "X" none [.subRange typ none "Y" none []],
    .subRange typ' none "Z" none []] }

/-- Types that are written like ids are in the way of other labeled nodes. -/
theorem not_forall_registerAll_anchors : ¬∀ typ typ' : String, typ ≠ "" → typ' ≠ "" → ∀ e s,
    Run.registerAll ((twoTypes typ typ').documents.map Prod.snd) (twoTypes typ typ').start =
      .error e s → ¬e.TakenId := by
  intro h
  obtain ⟨_, s, hs, rfl⟩ := exists_error_and (P := fun e => e = .located ⟨"/a", 3, 0⟩
      (.duplicate .anchor "a-1-1" ⟨"/a", 2, 1⟩))
    (m := Run.registerAll ((twoTypes "a" "a-1").documents.map Prod.snd))
    (s := (twoTypes "a" "a-1").start) (by decide +kernel)
  exact h "a" "a-1" (by decide) (by decide) _ s hs trivial

end Collection

end Folio
