import Folio.Proofs.FoundTexts
import Folio.Proofs.LabeledNodes
import Folio.Proofs.Resolution.Lasting
import Folio.Proofs.Resolution.Sheltering

/-!
# Arguments are written out where they were given

A block reference hands texts over for parameters. Wherever such a parameter is in effect
(`Registry.Governs`), a value with its name is written out as the text would be in the frame of the
block reference itself, whatever is defined in the block, around it or in the expansions inside
(`Collection.Described.arguments_rendered`).

What is written out for a text depends on scope and document of its frame only
(`Resolution.renderTextWithin_congr`). A value is handled in a frame with the scope of the block
reference, but with the document that the value stands in. These documents are the same as long as
blocks that are defined in an expansion are not expanded in other documents (`Registry.Domestic`),
and it takes an absolute tag inside another block to do that (`Collection.Described.domestic`). Where
it is done, an argument is read for the wrong document (`not_forall_arguments_rendered`).
-/

namespace Folio

open Resolution

namespace Registry

variable {r : Registry} {τ σ : ScopeId} {name : String}

/-- What a name stands for in the scope `σ` is decided by the scope `τ`: no scope on the way there
knows the name. -/
def Governs (r : Registry) (τ σ : ScopeId) (name : String) : Prop :=
  ∃ pre post, r.staticChain σ = pre ++ τ :: post ∧
    ∀ ρ ∈ pre, (r.scope? ρ).bind (·.values.lookup name) = none

/-- Reading off a static chain which scope decides. -/
theorem governs_of_take {n : Nat} {pre : List ScopeId} (h : (r.staticChain σ).take n = pre ++ [τ])
    (hpre : ∀ ρ ∈ pre, (r.scope? ρ).bind (·.values.lookup name) = none) : r.Governs τ σ name := by
  refine ⟨pre, (r.staticChain σ).drop n, ?_, hpre⟩
  calc r.staticChain σ = (r.staticChain σ).take n ++ (r.staticChain σ).drop n :=
        (List.take_append_drop n _).symm
    _ = pre ++ τ :: (r.staticChain σ).drop n := by rw [h, List.append_assoc, List.singleton_append]

theorem Governs.mem (h : r.Governs τ σ name) : τ ∈ r.staticChain σ := by
  obtain ⟨pre, post, hchain, -⟩ := h
  rw [hchain]
  simp

theorem Governs.lookupValue (h : r.Governs τ σ name) {sc : Scope} (hτ : r.scope? τ = some sc)
    {v : ValueId} (hv : sc.values.lookup name = some v) : r.lookupValue σ name = some v := by
  obtain ⟨pre, post, hchain, hpre⟩ := h
  unfold Registry.lookupValue findStatic
  rw [hchain, List.findSome?_append, List.findSome?_eq_none_iff.2 hpre, Option.none_or,
    List.findSome?_cons, hτ, Option.bind_some, hv]

end Registry

/-- The text that stands at a visit. -/
def Visit.content? : Visit → Option InlineText
  | .text _ content => some content
  | .heading _ h _ _ => some h.title
  | .term _ _ _ content => some content
  | _ => none

namespace Resolution

/-! ## What a text depends on -/

section

variable {s : Resolution} {f g : FrameId} {n : Nat} {t : InlineText}

theorem renderPart_congr (hs : s.scopeOf f = s.scopeOf g) (hd : s.documentOf f = s.documentOf g)
    (value : FrameId → InlineText → Except ResolveError String) (location : Location) (p : Part) :
    s.renderPart value f location p = s.renderPart value g location p := by
  cases p <;> simp only [renderPart, state?, attribute?, hs, hd]

/-- A text is written out in the same way in frames with the same scope and the same document. -/
theorem renderTextWithin_congr (hs : s.scopeOf f = s.scopeOf g)
    (hd : s.documentOf f = s.documentOf g) (n : Nat) (t : InlineText) :
    s.renderTextWithin n f t = s.renderTextWithin n g t := by
  cases n with
  | zero => rfl
  | succ n =>
    have hparts : s.renderPart (s.renderTextWithin n) f t.location =
        s.renderPart (s.renderTextWithin n) g t.location :=
      funext fun p => renderPart_congr hs hd _ _ p
    rw [renderTextWithin, renderTextWithin, hparts]

theorem mapM_congr {α β ε : Type} {f g : α → Except ε β} {xs : List α}
    (h : ∀ x ∈ xs, f x = g x) : xs.mapM f = xs.mapM g := by
  induction xs with
  | nil => rfl
  | cons x xs ih =>
    obtain ⟨hx, hxs⟩ := List.forall_mem_cons.1 h
    rw [List.mapM_cons, List.mapM_cons, hx, ih hxs]

/-- The depth of the values in a text is all that matters of a bound on it. -/
theorem Legible.renderTextWithin_eq (h : s.Legible n f t) {m : Nat} (hle : n ≤ m) :
    s.renderTextWithin m f t = s.renderTextWithin n f t := by
  induction n generalizing m f t with
  | zero => exact h.elim
  | succ n ih =>
    obtain ⟨m, rfl⟩ := Nat.exists_eq_add_of_le' hle
    rw [← Nat.add_assoc, renderTextWithin, renderTextWithin]
    have hparts : t.parts.mapM (s.renderPart (s.renderTextWithin (m + n)) f t.location) =
        t.parts.mapM (s.renderPart (s.renderTextWithin n) f t.location) := by
      refine mapM_congr fun p hp => ?_
      cases p with
      | value key name =>
        obtain ⟨inner, body, hst, hbody⟩ := h.2 key name hp
        simp only [renderPart, hst]
        exact ih hbody (Nat.le_add_left n m)
      | _ => rfl
    rw [hparts]

end

/-! ## Texts that are shown -/

/-- The walk through some document comes to the visit. -/
def HasVisit (s : Resolution) (v : Visit) : Prop :=
  ∃ path info vs, s.info? path = some info ∧ Walk s info.frame info.document.nodes vs ∧ v ∈ vs

/-- The text is handled in the frame: it stands at a visit, or a value in such a text stands for
it. -/
inductive Shown (s : Resolution) : FrameId → InlineText → Prop
  | visit {v : Visit} {t : InlineText} (hv : s.HasVisit v) (ht : v.content? = some t) :
    Shown s v.frame t
  | value {f : FrameId} {t : InlineText} {key : NodeKey} {name : String} {inner : FrameId}
    {body : InlineText} (h : Shown s f t) (hp : .value key name ∈ t.parts)
    (hst : s.state? f key = some (.value inner body)) : Shown s inner body

end Resolution

/-- The key of a block reference. -/
def Node.reference? : Node → Option NodeKey
  | .expansion key .. => some key
  | _ => none

/-- The state of a block reference is kept where a walk comes to it. -/
theorem Walk.expansion_mem {s : Resolution} {f : FrameId} {ns : List Node} {vs : List Visit}
    (h : Walk s f ns vs) {g inner : FrameId} {key : NodeKey} {location : Location}
    (hmem : .expansion g key location inner ∈ vs) :
    s.Inside g inner IsBlock ∧ ∃ body, s.Holds g key (.expansion inner body) := by
  induction h with
  | nil => cases hmem
  | text _ _ _ ih | embedding _ _ _ _ _ _ _ ih | term _ _ _ _ _ _ ih =>
    rcases List.mem_cons.1 hmem with heq | hmem
    · cases heq
    · exact ih hmem
  | labeled _ _ _ _ _ _ _ ihb ihr =>
    rcases List.mem_cons.1 hmem with heq | hmem
    · cases heq
    · rcases List.mem_append.1 hmem with hmem | hmem
      · exact ihb hmem
      · exact ihr hmem
  | @expansion _ _ _ _ _ _ _ body _ _ _ hs hi _ _ ihb ihr =>
    rcases List.mem_cons.1 hmem with heq | hmem
    · cases heq
      exact ⟨hi, body, hs⟩
    · rcases List.mem_append.1 hmem with hmem | hmem
      · exact ihb hmem
      · exact ihr hmem

/-- A walk comes to the block references among its nodes, and to the text of a block. -/
theorem Walk.exists_expansion_mem {s : Resolution} {f inner : FrameId} {ns : List Node}
    {vs : List Visit} (h : Walk s f ns vs) {key : NodeKey} {content : InlineText}
    (hmem : some key ∈ ns.map Node.reference?)
    (hst : s.state? f key = some (.expansion inner [.text content])) :
    ∃ location, .expansion f key location inner ∈ vs ∧ .text inner content ∈ vs := by
  induction h with
  | nil => cases hmem
  | text _ _ _ ih | embedding _ _ _ _ _ _ _ ih | term _ _ _ _ _ _ ih =>
    rcases List.mem_cons.1 hmem with heq | hmem
    · cases heq
    · obtain ⟨location, he, ht⟩ := ih hmem hst
      exact ⟨location, List.mem_cons_of_mem _ he, List.mem_cons_of_mem _ ht⟩
  | labeled _ _ _ _ _ _ _ _ ih =>
    rcases List.mem_cons.1 hmem with heq | hmem
    · cases heq
    · obtain ⟨location, he, ht⟩ := ih hmem hst
      exact ⟨location, List.mem_cons_of_mem _ (List.mem_append_right _ he),
        List.mem_cons_of_mem _ (List.mem_append_right _ ht)⟩
  | expansion f key' location _ _ _ hs _ hb _ _ ih =>
    rcases List.mem_cons.1 hmem with heq | hmem
    · cases heq
      cases hs.state?.symm.trans hst
      cases hb with
      | text _ _ hnil =>
        cases hnil
        exact ⟨location, by simp, by simp⟩
    · obtain ⟨location', he, ht⟩ := ih hmem hst
      exact ⟨location', List.mem_cons_of_mem _ (List.mem_append_right _ he),
        List.mem_cons_of_mem _ (List.mem_append_right _ ht)⟩

namespace Resolution

/-- The frame and the text of a block that is a text. -/
def expandedText? (s : Resolution) (f : FrameId) (key : NodeKey) : Option (FrameId × InlineText) :=
  match s.state? f key with
  | some (.expansion inner [.text content]) => some (inner, content)
  | _ => none

theorem state?_of_expandedText? {s : Resolution} {f inner : FrameId} {key : NodeKey}
    {content : InlineText} (h : s.expandedText? f key = some (inner, content)) :
    s.state? f key = some (.expansion inner [.text content]) := by
  unfold expandedText? at h
  split at h
  · case h_1 hst =>
    cases h
    exact hst
  · cases h

/-- A value that is found in the end was registered as it is. -/
theorem Lasts.value_state {s₁ s : Resolution} (h : s₁.Lasts s) {f : FrameId} {frame : Frame}
    (hf : s₁.frame? f = some frame) {t : InlineText} (hheld : s₁.Held frame.scope t)
    {key : NodeKey} {name : String} (hp : .value key name ∈ t.parts) {inner : FrameId}
    {body : InlineText} (hst : s.state? f key = some (.value inner body)) :
    s₁.stateIn? frame.scope key = some (.value inner body) := by
  obtain ⟨st, hst₁⟩ := Option.isSome_iff_exists.1 (hheld _ hp key rfl)
  obtain ⟨st', hst', hcore⟩ := h.recalls f key st (by rw [state?, scopeOf_eq hf, hst₁])
  cases hst.symm.trans hst'
  rw [hst₁]
  cases st <;> simp_all [NodeState.core, NodeState.untargeted, NodeState.untold]

namespace Concluded

variable {c : Collection} {W : List (String × List Visit)} {s₁ s : Resolution}

theorem mem_of_hasVisit (h : Concluded c W s₁ s) {v : Visit} (hv : s.HasVisit v) :
    v ∈ W.flatMap Prod.snd := by
  obtain ⟨path, info, vs, hinfo, hwalk, hmem⟩ := hv
  obtain ⟨ws, hw, hwalk'⟩ := h.walk path info hinfo
  cases hwalk.unique hwalk'
  exact List.mem_flatMap.2 ⟨(path, vs), hw, hmem⟩

/-- A text that is shown was written, and its parts were registered. -/
theorem held (h : Concluded c W s₁ s) {f : FrameId} {t : InlineText} (ht : s.Shown f t) :
    c.HasText t ∧ ∃ frame, s₁.frame? f = some frame ∧ s₁.Held frame.scope t := by
  induction ht with
  | @visit v t hv ht =>
    have hstated := h.equipped.stated v (h.mem_of_hasVisit hv)
    cases v with
    | text f content =>
      cases ht
      obtain ⟨frame, hf, htext, hheld⟩ := hstated
      exact ⟨htext, frame, hf, hheld⟩
    | heading | term =>
      cases ht
      obtain ⟨frame, hf, htext, hheld, -⟩ := hstated
      exact ⟨htext, frame, hf, hheld⟩
    | embedding | expansion => cases ht
  | value _ hp hst ih =>
    obtain ⟨-, frame, hf, hheld⟩ := ih
    obtain ⟨frame', hf', -, htext, hheld'⟩ :=
      h.equipped.complete _ _ _ _ (h.lasts.value_state hf hheld hp hst)
    exact ⟨htext, frame', hf', hheld'⟩

/-- An expansion was registered with the arguments of its block reference. -/
theorem passes (h : Concluded c W s₁ s) (hs₁ : s₁.Hygienic c) {f inner : FrameId} {key : NodeKey}
    {location : Location} (hv : s.HasVisit (.expansion f key location inner)) :
    s₁.Inside f inner IsBlock ∧ s₁.Passes c key inner := by
  obtain ⟨⟨path, ws⟩, hw, hmem⟩ := List.mem_flatMap.1 (h.mem_of_hasVisit hv)
  obtain ⟨info, -, hwalk, -⟩ := h.catalog.walk path ws hw
  obtain ⟨hinside, body, frame, -, hst⟩ := hwalk.expansion_mem hmem
  exact ⟨hinside, hs₁.state _ _ _ (stateIn?_of_fixed? hst).1⟩

/-- A value stands for the argument of the block reference, handled in its scope, and in its
document as far as expansions are domestic. -/
theorem argument_state (hc : c.Described) (h : Concluded c W s₁ s) (hs₁ : s₁.Hygienic c)
    {f inner : FrameId} {key : NodeKey} {location : Location}
    (hv : s.HasVisit (.expansion f key location inner)) {arguments : Table InlineText}
    (hcall : c.HasCall key arguments) {p : String} {body : InlineText}
    (hp : arguments.lookup p = some body) {g : FrameId} {t : InlineText} (ht : s.Shown g t)
    {k : NodeKey} (hk : .value k p ∈ t.parts)
    (hgov : s.registry.Governs (s.scopeOf inner) (s.scopeOf g) p) :
    ∃ opened, s.state? g k = some (.value opened body) ∧
      s.Legible s.frames.size opened body ∧ s.scopeOf opened = s.scopeOf f ∧
      (s.registry.Domestic → s.documentOf opened = s.documentOf f) := by
  have hretains : s₁.registry.Retains s.registry :=
    (Registry.Upholds.of_eq h.lasts.scopes h.lasts.values).toRetains
  obtain ⟨htext, frame, hg, hheld⟩ := h.held ht
  have hlegible : s.Legible (s.frames.size + 1) g t := by
    rw [h.lasts.size]
    exact (h.equipped.legible_size hc hg htext hheld).recalls h.lasts.recalls
  obtain ⟨opened, body', hst, hbody⟩ := hlegible.2 k p hk
  -- the value was registered for what its scope sees under the name
  obtain ⟨t', p', htext', hk', hstands⟩ :=
    hs₁.state _ _ _ (h.lasts.value_state hg hheld hk hst)
  cases hc.part_unique htext htext' hk hk' (k := k) rfl rfl
  obtain ⟨v, binder, sc, fr, outer, hlookup, hval, hσ, hopened, hbinder, hscope, hdoc⟩ := hstands
  -- that is the argument, bound to the frame of the block reference
  obtain ⟨⟨_, frame', -, hframe', hparent', -⟩, caller, callerFrame, innerFrame, τsc, arguments',
    hcall', hcaller, hinner, hparent, hτ, hpar, hcallerDoc, hargs⟩ := h.passes hs₁ hv
  cases hc.arguments_unique hcall hcall'
  cases hinner.symm.trans hframe'
  cases hparent.symm.trans hparent'
  obtain ⟨w, hw, hval'⟩ := hargs p body hp
  have hτ' : s.registry.scope? (s.scopeOf inner) = some τsc := by
    rw [h.lasts.scope?, h.lasts.scopeOf, scopeOf_eq hinner, hτ]
  have hlookup' : s.registry.lookupValue (s.scopeOf g) p = some v := by
    rw [h.lasts.scopeOf, scopeOf_eq hg]
    exact hretains.lookupValue hlookup
  cases hlookup'.symm.trans (hgov.lookupValue hτ' hw)
  cases hval.symm.trans hval'
  cases hcaller.symm.trans hbinder
  refine ⟨opened, hst, hbody, ?_, fun hd => ?_⟩
  · rw [h.lasts.scopeOf, h.lasts.scopeOf, scopeOf_eq hopened, scopeOf_eq hbinder, hscope]
  · have hσ' : s.registry.scope? (s.scopeOf g) = some sc := by
      rw [h.lasts.scope?, h.lasts.scopeOf, scopeOf_eq hg, hσ]
    obtain ⟨heq, -⟩ := hd.document_eq
      (fun ρ ρsc hρ => hs₁.rooted ρ ρsc (h.lasts.scope? ρ ▸ hρ)) hσ' hgov.mem hτ' hpar
    rw [h.lasts.toKeeps.documentOf_eq hopened, h.lasts.toKeeps.documentOf_eq hbinder,
      documentOf_eq hopened, documentOf_eq hbinder, hdoc (hretains.domestic hd), heq, hcallerDoc]

end Concluded

/-- A value is written out as its text is in any frame with the same scope and document. -/
theorem renderPart_value {s : Resolution} {f g opened : FrameId} {k : NodeKey}
    {body : InlineText} (hst : s.state? g k = some (.value opened body))
    (hbody : s.Legible s.frames.size opened body) (hs : s.scopeOf opened = s.scopeOf f)
    (hd : s.documentOf opened = s.documentOf f) (location : Location) (p : String) :
    s.renderPart (s.renderTextWithin s.frames.size) g location (.value k p) =
      s.renderText f body := by
  calc s.renderPart (s.renderTextWithin s.frames.size) g location (.value k p)
      = s.renderTextWithin s.frames.size opened body := by simp only [renderPart, hst]
    _ = s.renderTextWithin (s.frames.size + 1) opened body :=
      (hbody.renderTextWithin_eq (Nat.le_succ _)).symm
    _ = s.renderText f body := renderTextWithin_congr hs hd _ _

end Resolution

namespace Collection

variable {c : Collection}

/-- A resolution that succeeds has gone through all documents. -/
theorem Described.exists_walk (hc : c.Described) {s : Resolution} (hs : c.resolve = .ok () s)
    {path : String} {d : Document} (hd : (path, d) ∈ c.documents) :
    ∃ info vs, s.info? path = some info ∧ info.document = d ∧
      Walk s info.frame info.document.nodes vs := by
  obtain ⟨W, s₁, h⟩ := hc.resolve_concluded hs
  have hmem : path ∈ s.documents.keys := h.keys ▸ List.mem_map.2 ⟨_, hd, rfl⟩
  obtain ⟨info, hinfo⟩ := Table.mem_keys_iff.1 hmem
  obtain ⟨vs, -, hwalk⟩ := h.walk path info hinfo
  have hlookup := Table.lookup_of_mem hc.sorted (h.document path info hinfo)
  exact ⟨info, vs, hinfo,
    Option.some.inj (hlookup.symm.trans (Table.lookup_of_mem hc.sorted hd)), hwalk⟩

/-- A block reference in a document is visited, and the text of its block is handled. -/
theorem Described.exists_hasVisit (hc : c.Described) {s : Resolution} (hs : c.resolve = .ok () s)
    {path : String} {f inner : FrameId} {key : NodeKey} {content : InlineText}
    (hkey : ∃ d ∈ c.documents, d.1 = path ∧ some key ∈ d.2.nodes.map Node.reference?)
    (hf : (s.info? path).map (fun info => info.frame) = some f)
    (htext : s.expandedText? f key = some (inner, content)) :
    ∃ location, s.HasVisit (.expansion f key location inner) ∧ s.Shown inner content := by
  obtain ⟨⟨path, d⟩, hd, rfl, hkey⟩ := hkey
  obtain ⟨info, vs, hinfo, rfl, hwalk⟩ := hc.exists_walk hs hd
  obtain ⟨info', hinfo', rfl⟩ := Option.map_eq_some_iff.1 hf
  cases hinfo.symm.trans hinfo'
  obtain ⟨location, he, ht⟩ :=
    hwalk.exists_expansion_mem hkey (state?_of_expandedText? htext)
  exact ⟨location, ⟨path, info, vs, hinfo, hwalk, he⟩,
    .visit ⟨path, info, vs, hinfo, hwalk, ht⟩ rfl⟩

/-- Without absolute tags inside of blocks, blocks that are defined in an expansion are expanded in its
document only. -/
theorem Described.domestic (hc : c.Described) {s : Resolution} (hs : c.resolve = .ok () s)
    (hin : c.InnerBlocksRelative) : s.registry.Domestic := by
  obtain ⟨W, s₁, h⟩ := hc.resolve_concluded hs
  have hs₁ : s₁.registry.Sheltered := (Run.registerAll_sheltered hc hin).of_ok h.registered
  exact (Registry.Upholds.of_eq h.lasts.scopes.symm h.lasts.values.symm).domestic hs₁.domestic

/-- A resolution that succeeds has gone through all documents. Where a parameter is in effect that a
block reference hands a text over for, a value stands for that text, in the scope of the block
reference. It is written out as the text is in the frame of the block reference, or fails as that
does, if the documents agree as well. They do as far as blocks that are defined in an expansion are
expanded in its document only, so without absolute tags inside of blocks they always do. -/
theorem Described.arguments_rendered (hc : c.Described) {s : Resolution}
    (hs : c.resolve = .ok () s) :
    (∀ path d, (path, d) ∈ c.documents → ∃ info vs, s.info? path = some info ∧
      info.document = d ∧ Walk s info.frame info.document.nodes vs) ∧
      (c.InnerBlocksRelative → s.registry.Domestic) ∧
      ∀ f key location inner arguments, s.HasVisit (.expansion f key location inner) →
        c.HasCall key arguments → ∀ p body, arguments.lookup p = some body →
        ∀ g t k, s.Shown g t → .value k p ∈ t.parts →
          s.registry.Governs (s.scopeOf inner) (s.scopeOf g) p →
          ∃ opened, s.state? g k = some (.value opened body) ∧
            s.scopeOf opened = s.scopeOf f ∧
            (s.registry.Domestic → s.documentOf opened = s.documentOf f) ∧
            (s.documentOf opened = s.documentOf f →
              s.renderPart (s.renderTextWithin s.frames.size) g t.location (.value k p) =
                s.renderText f body) := by
  refine ⟨fun path d hd => hc.exists_walk hs hd, hc.domestic hs, ?_⟩
  intro f key location inner arguments hv hcall p body hp g t k ht hk hgov
  obtain ⟨W, s₁, h⟩ := hc.resolve_concluded hs
  have hs₁ : s₁.Hygienic c := (Run.registerAll_hygienic hc).of_ok h.registered
  obtain ⟨opened, hst, hbody, hscope, hdoc⟩ := h.argument_state hc hs₁ hv hcall hp ht hk hgov
  exact ⟨opened, hst, hscope, hdoc, fun heq => renderPart_value hst hbody hscope heq t.location p⟩

/-- The documents with the paths and the descriptions, as far as they can be read. -/
def written (ds : List (String × Description)) : Collection where
  documents := ds.filterMap fun p => (Document.ofDescription? p.1 p.2).toOption.map (p.1, ·)

theorem written_described {ds : List (String × Description)}
    (h : (ds.map Prod.fst).Pairwise (· < ·)) : (written ds).Described where
  sorted := by
    refine h.sublist ?_
    clear h
    induction ds with
    | nil => exact .refl _
    | cons p ds ih =>
      unfold written Table.keys at ih ⊢
      rw [List.filterMap_cons]
      cases Document.ofDescription? p.1 p.2 with
      | ok d => exact ih.cons_cons p.1
      | error e => exact ih.cons p.1
  made path d hd := by
    obtain ⟨p, -, hp⟩ := List.mem_filterMap.1 hd
    cases hmade : Document.ofDescription? p.1 p.2 with
    | ok d' =>
      rw [hmade] at hp
      cases hp
      exact ⟨p.2, hmade⟩
    | error e =>
      rw [hmade] at hp
      cases hp

/-- A block under a name of its own, to which a text with the name around is handed over. -/
def ownScope : Collection := written [("/doc", {
  blocks := [{ tag := "b", parameters := [⟨"p", none⟩], nodes := [.text "\x7b\x7bvalue p\x7d\x7d"] }]
  nodes := [.expansion "b" (some "x") [("p", "in '\x7b\x7battr scope\x7d\x7d'")]] })]

/-- The name that is written out is the one where the argument was given, which is empty. -/
theorem arguments_rendered_ownScope : ∃ s location content body,
    ownScope.resolve = .ok () s ∧
      s.HasVisit (.expansion ⟨0⟩ ⟨"/doc", 2⟩ location ⟨1⟩) ∧
      ownScope.HasCall ⟨"/doc", 2⟩ [("p", body)] ∧ s.Shown ⟨1⟩ content ∧
      .value ⟨"/doc", 1⟩ "p" ∈ content.parts ∧
      s.registry.Governs (s.scopeOf ⟨1⟩) (s.scopeOf ⟨1⟩) "p" ∧ ownScope.InnerBlocksRelative ∧
      s.attribute? ⟨1⟩ "scope" = some "x" ∧
      s.renderPart (s.renderTextWithin s.frames.size) ⟨1⟩ content.location (.value ⟨"/doc", 1⟩ "p") =
        s.renderText ⟨0⟩ body ∧ s.renderText ⟨0⟩ body = .ok "in ''" := by
  have hc : ownScope.Described := written_described (by decide)
  have hcall : ∃ d ∈ ownScope.documents, (⟨"/doc", 2⟩, [("p",
      ⟨⟨"/doc", 3, 0⟩, [.text "in '", .attribute "scope", .text "'"]⟩)]) ∈ d.2.calls := by
    decide +kernel
  have hkey : ∃ d ∈ ownScope.documents, d.1 = "/doc" ∧
      some ⟨"/doc", 2⟩ ∈ d.2.nodes.map Node.reference? := by decide +kernel
  have hinner : ∀ p ∈ ownScope.documents, ∀ b ∈ Block.all p.2.blocks, ∀ inner ∈ b.blocks,
      Path.isAbs inner.tag = false := by decide +kernel
  have hin : ownScope.InnerBlocksRelative := fun b hb => by
    obtain ⟨path, d, hd, hmem⟩ := hb
    exact hinner (path, d) hd b hmem
  obtain ⟨s, hs, hf, htext, hchain, hscope, hrendered⟩ := ownScope.exists_resolve_and
    (P := fun s => (s.info? "/doc").map (fun info => info.frame) = some ⟨0⟩ ∧
      s.expandedText? ⟨0⟩ ⟨"/doc", 2⟩ = some (⟨1⟩, ⟨⟨"/doc", 2, 1⟩, [.value ⟨"/doc", 1⟩ "p"]⟩) ∧
      (s.registry.staticChain (s.scopeOf ⟨1⟩)).take 1 = [] ++ [s.scopeOf ⟨1⟩] ∧
      s.attribute? ⟨1⟩ "scope" = some "x" ∧
      s.renderText ⟨0⟩ ⟨⟨"/doc", 3, 0⟩, [.text "in '", .attribute "scope", .text "'"]⟩ =
        .ok "in ''") (by decide +kernel)
  generalize ownScope = c at hc hcall hkey hin hs ⊢
  obtain ⟨⟨path, d⟩, hd, hcall⟩ := hcall
  obtain ⟨location, hv, hshown⟩ := hc.exists_hasVisit hs hkey hf htext
  have hgov : s.registry.Governs (s.scopeOf ⟨1⟩) (s.scopeOf ⟨1⟩) "p" :=
    Registry.governs_of_take hchain nofun
  obtain ⟨-, hdomestic, hvalues⟩ := hc.arguments_rendered hs
  obtain ⟨opened, -, -, hdoc, heq⟩ := hvalues _ _ _ _ _ hv ⟨path, d, hd, hcall⟩ "p" _ rfl ⟨1⟩ _
    ⟨"/doc", 1⟩ hshown (by simp) hgov
  exact ⟨s, location, _, _, hs, hv, ⟨path, d, hd, hcall⟩, hshown, by simp, hgov, hin, hscope,
    heq (hdoc (hdomestic hin)), hrendered⟩

/-- The block `/in` of `/a/u` is defined in an expansion of `o`, and expanded in `/z/d`. -/
def strayBlock : Collection := written [
  ("/a/u", {
    blocks := [{
      tag := "o", parameters := [⟨"p", none⟩]
      blocks := [{ tag := "/in", nodes := [.text "\x7b\x7bvalue p\x7d\x7d"] }]
      nodes := [.text "\x7b\x7bvalue p\x7d\x7d"] }]
    nodes := [.expansion "o" none [("p", "\x7b\x7btitle x#\x7d\x7d \x7b\x7battr docpath\x7d\x7d")]] }),
  ("/a/x", { nodes := [.heading none "AX" []] }),
  ("/z/d", { nodes := [.expansion "/in" none []] }),
  ("/z/x", { nodes := [.heading none "ZX" []] })]

/-- An argument is not always written out as where it was given: here it shows the document that it
is handled in. -/
theorem not_forall_arguments_rendered : ¬∀ (c : Collection) (s : Resolution), c.Described →
    c.resolve = .ok () s → ∀ f key location inner arguments,
      s.HasVisit (.expansion f key location inner) → c.HasCall key arguments →
      ∀ p body, arguments.lookup p = some body → ∀ g t k, s.Shown g t → .value k p ∈ t.parts →
        s.registry.Governs (s.scopeOf inner) (s.scopeOf g) p →
        s.renderPart (s.renderTextWithin s.frames.size) g t.location (.value k p) =
          s.renderText f body := by
  intro hall
  have hc : strayBlock.Described := written_described (by decide)
  have hcall : ∃ d ∈ strayBlock.documents, (⟨"/a/u", 3⟩, [("p", ⟨⟨"/a/u", 5, 0⟩,
      [.reference ⟨"/a/u", 4⟩ .title "x#", .text " ", .attribute "docpath"]⟩)]) ∈ d.2.calls := by
    decide +kernel
  have hkey : ∃ d ∈ strayBlock.documents, d.1 = "/a/u" ∧
      some ⟨"/a/u", 3⟩ ∈ d.2.nodes.map Node.reference? := by decide +kernel
  have hkey' : ∃ d ∈ strayBlock.documents, d.1 = "/z/d" ∧
      some ⟨"/z/d", 1⟩ ∈ d.2.nodes.map Node.reference? := by decide +kernel
  obtain ⟨s, hs, hf, htext, hf', htext', hchain, hunknown, hgiven, hread⟩ :=
    strayBlock.exists_resolve_and (P := fun s =>
      (s.info? "/a/u").map (fun info => info.frame) = some ⟨0⟩ ∧
      s.expandedText? ⟨0⟩ ⟨"/a/u", 3⟩ = some (⟨4⟩, ⟨⟨"/a/u", 4, 1⟩, [.value ⟨"/a/u", 2⟩ "p"]⟩) ∧
      (s.info? "/z/d").map (fun info => info.frame) = some ⟨2⟩ ∧
      s.expandedText? ⟨2⟩ ⟨"/z/d", 1⟩ = some (⟨7⟩, ⟨⟨"/a/u", 3, 2⟩, [.value ⟨"/a/u", 1⟩ "p"]⟩) ∧
      (s.registry.staticChain (s.scopeOf ⟨7⟩)).take 2 = [s.scopeOf ⟨7⟩] ++ [s.scopeOf ⟨4⟩] ∧
      (s.registry.scope? (s.scopeOf ⟨7⟩)).bind (·.values.lookup "p") = none ∧
      s.renderText ⟨0⟩ ⟨⟨"/a/u", 5, 0⟩,
        [.reference ⟨"/a/u", 4⟩ .title "x#", .text " ", .attribute "docpath"]⟩ = .ok "ZX /a/u" ∧
      s.renderPart (s.renderTextWithin s.frames.size) ⟨7⟩ ⟨"/a/u", 3, 2⟩ (.value ⟨"/a/u", 1⟩ "p") =
        .ok "ZX /z/d") (by decide +kernel)
  generalize strayBlock = c at hc hcall hkey hkey' hs
  obtain ⟨⟨path, d⟩, hd, hcall⟩ := hcall
  obtain ⟨location, hv, -⟩ := hc.exists_hasVisit hs hkey hf htext
  obtain ⟨-, -, hshown⟩ := hc.exists_hasVisit hs hkey' hf' htext'
  have hgov : s.registry.Governs (s.scopeOf ⟨4⟩) (s.scopeOf ⟨7⟩) "p" :=
    Registry.governs_of_take hchain fun ρ hρ => List.mem_singleton.1 hρ ▸ hunknown
  have heq := hall c s hc hs _ _ _ _ _ hv ⟨path, d, hd, hcall⟩ "p" _ rfl ⟨7⟩ _ ⟨"/a/u", 1⟩ hshown
    (by simp) hgov
  rw [hgiven, hread] at heq
  exact absurd heq (by decide)

end Collection

end Folio
