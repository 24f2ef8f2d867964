import Folio.Proofs.Resolution.Catalog
import Folio.Proofs.Resolution.Safely
import Mathlib.Data.List.Basic

/-!
# What visits find

Later phases come to the nodes of a document again and rely on what registration has left there: the
parts of texts have states, the ranges of labeled nodes were asked for, and every term has a place
of its own for its text. `Resolution.Stated` says this for one visit. `Resolution.Furnishes` says
that registering nodes leaves it for every visit of their walk, and `registerAll_ends` that
registering documents does, without an internal error.
-/

namespace Folio

open Resolution

/-! ## Walks are unique -/

theorem Resolution.Holds.unique {s : Resolution} {f : FrameId} {key : NodeKey}
    {state state' : NodeState} (h : s.Holds f key state) (h' : s.Holds f key state') :
    state = state' := by
  obtain ⟨frame, hf, hst⟩ := h
  obtain ⟨frame', hf', hst'⟩ := h'
  cases hf.symm.trans hf'
  exact Option.some.inj (hst.symm.trans hst')

/-- The state that a walk finds for a node is the one that was set. -/
theorem Resolution.Holds.eq_of_stateIn? {s : Resolution} {f : FrameId} {frame : Frame}
    {key : NodeKey} {state state' : NodeState} (h : s.Holds f key state)
    (hf : s.frame? f = some frame) (hst : s.stateIn? frame.scope key = some state') :
    state = state' := by
  obtain ⟨frame', hf', hfixed⟩ := h
  cases hf.symm.trans hf'
  exact Option.some.inj ((stateIn?_of_fixed? hfixed).1.symm.trans hst)

/-- The fixed states of nodes determine the walk. -/
theorem Walk.unique {s : Resolution} {f : FrameId} {ns : List Node} {vs ws : List Visit}
    (h : Walk s f ns vs) (h' : Walk s f ns ws) : vs = ws := by
  induction h generalizing ws with
  | nil f =>
    cases h'
    rfl
  | text f content _ ih =>
    cases h' with
    | text _ _ hr => rw [ih hr]
  | labeled f h hst _ _ _ _ ihb ihr =>
    cases h' with
    | labeled _ _ hst' _ _ hb hr =>
      cases hst.unique hst'
      rw [ihb hb, ihr hr]
  | embedding f key location written hst _ _ ih =>
    cases h' with
    | embedding _ _ _ _ hst' _ hr =>
      cases hst.unique hst'
      rw [ih hr]
  | expansion f key location block tag arguments hst _ _ _ ihb ihr =>
    cases h' with
    | expansion _ _ _ _ _ _ hst' _ hb hr =>
      cases hst.unique hst'
      rw [ihb hb, ihr hr]
  | term f key location tag content _ ih =>
    cases h' with
    | term _ _ _ _ _ hr => rw [ih hr]

/-! ## Visits that find what they need -/

namespace Resolution

/-- Where the text of a term is kept. -/
def site? (s : Resolution) : Visit → Option (ScopeId × NodeKey)
  | .term f key _ _ => some (s.scopeOf f, key)
  | _ => none

/-- A document asks for the range of a label type. -/
def Requested (s : Resolution) (d typ : String) : Prop :=
  ∃ info, s.info? d = some info ∧ typ ∈ info.ranges

/-- What later phases need at a visit is there. -/
def Stated (c : Collection) (s : Resolution) : Visit → Prop
  | .text f content => ∃ frame, s.frame? f = some frame ∧ c.HasText content ∧
    s.Held frame.scope content
  | .heading f h _ _ => ∃ frame, s.frame? f = some frame ∧ c.HasText h.title ∧
    s.Held frame.scope h.title ∧ s.Requested frame.document (h.typeIn s.options)
  | .embedding f _ _ _ => ∃ frame, s.frame? f = some frame ∧
    s.Requested frame.document s.options.sectionType
  | .expansion .. => True
  | .term f key _ content => ∃ frame, s.frame? f = some frame ∧ c.HasText content ∧
    s.Held frame.scope content ∧ c.stock.key key ∧ s.stateIn? frame.scope key = some (.term none)

/-- No node with one of the keys has a state in the scope. -/
def Vacant (s : Resolution) (scope : ScopeId) (us : List Use) : Prop :=
  ∀ k, .node k ∈ us → s.stateIn? scope k = none

/-- Nodes have no states in scopes that are not open yet. -/
theorem Proper.vacant {c : Collection} {s : Resolution} (h : s.Proper c) {scope : ScopeId}
    (hle : s.registry.scopes.size ≤ scope.index) (us : List Use) : s.Vacant scope us := by
  intro k _
  cases hst : s.stateIn? scope k with
  | none => rfl
  | some st =>
    have := (h.state scope k st hst).2
    omega

theorem Vacant.setState {s : Resolution} {scope : ScopeId} {us : List Use} (h : s.Vacant scope us)
    {f : FrameId} (hne : scope ≠ s.scopeOf f) (key : NodeKey) (state : NodeState) :
    (s.setState f key state).Vacant scope us := by
  intro k hk
  rw [stateIn?_setState, if_neg fun h => hne h.1]
  exact h k hk

theorem Vacant.free {s : Resolution} {scope : ScopeId} {us : List Use} (h : s.Vacant scope us) :
    s.Free scope us := fun k hk => by
  rw [fixed?, h k hk]
  rfl

/-- States of nodes may be set in new scopes, and for the given keys in one scope. -/
def Within (s : Resolution) (scope : ScopeId) (us : List Use) : ScopeId → NodeKey → Prop :=
  fun σ k => s.registry.scopes.size ≤ σ.index ∨ (σ = scope ∧ .node k ∈ us)

namespace Furthers

variable {c : Collection} {T : ScopeId → NodeKey → Prop} {s s' : Resolution}

theorem requested (h : s.Furthers c T s') {d typ : String} (hr : s.Requested d typ) :
    s'.Requested d typ := by
  obtain ⟨info, hd, hmem⟩ := hr
  obtain ⟨info', hd', hsub⟩ := h.ranges d info hd
  exact ⟨info', hd', hsub hmem⟩

theorem stated (h : s.Furthers c T s') {v : Visit} (hv : s.Stated c v) : s'.Stated c v := by
  cases v with
  | text f content =>
    obtain ⟨frame, hf, ht, hh⟩ := hv
    obtain ⟨frame', hf', -, -, hscope, -⟩ := h.frame f frame hf
    exact ⟨frame', hf', ht, hscope ▸ h.held hh⟩
  | heading f heading entry inner =>
    obtain ⟨frame, hf, ht, hh, hr⟩ := hv
    obtain ⟨frame', hf', -, hdoc, hscope, -⟩ := h.frame f frame hf
    exact ⟨frame', hf', ht, hscope ▸ h.held hh, by rw [hdoc, h.options]; exact h.requested hr⟩
  | embedding f key location link =>
    obtain ⟨frame, hf, hr⟩ := hv
    obtain ⟨frame', hf', -, hdoc, -⟩ := h.frame f frame hf
    exact ⟨frame', hf', by rw [hdoc, h.options]; exact h.requested hr⟩
  | expansion => trivial
  | term f key location content =>
    obtain ⟨frame, hf, ht, hh, hk, hst⟩ := hv
    obtain ⟨frame', hf', -, -, hscope, -⟩ := h.frame f frame hf
    exact ⟨frame', hf', ht, hscope ▸ h.held hh, hk, hscope ▸ h.node _ _ _ hk hst⟩

/-- Nodes that have no state get none where none is set. -/
theorem vacant_of_not (h : s.Furthers c T s') {scope : ScopeId} {us : List Use}
    (hk : ∀ k, .node k ∈ us → c.stock.key k) (hT : ∀ k, .node k ∈ us → ¬T scope k)
    (hv : s.Vacant scope us) : s'.Vacant scope us := by
  intro k hmem
  refine Classical.byContradiction fun hne => hT k hmem (h.touched scope k (hk k hmem) ?_)
  rwa [hv k hmem]

theorem vacant (h : s.Furthers c Nowhere s') {scope : ScopeId} {us : List Use}
    (hk : ∀ k, .node k ∈ us → c.stock.key k) (hv : s.Vacant scope us) : s'.Vacant scope us :=
  h.vacant_of_not hk (fun _ _ h => h) hv

/-- Other nodes in the scope still have no state. -/
theorem vacant_within {scope : ScopeId} {us us' : List Use}
    (h : s.Furthers c (s.Within scope us) s') (hlt : scope.index < s.registry.scopes.size)
    (hk : ∀ k, .node k ∈ us' → c.stock.key k) (hdisjoint : ∀ k, .node k ∈ us' → .node k ∉ us)
    (hv : s.Vacant scope us') : s'.Vacant scope us' := by
  refine h.vacant_of_not hk (fun k hmem hin => ?_) hv
  rcases hin with hle | ⟨-, hin⟩
  · omega
  · exact hdisjoint k hmem hin

theorem site?_eq (h : s.Furthers c T s') {v : Visit} (hv : s.Stated c v) :
    s'.site? v = s.site? v := by
  cases v with
  | term f key location content =>
    obtain ⟨frame, hf, -⟩ := hv
    rw [site?, site?, h.scopeOf_eq hf, scopeOf_eq hf]
  | _ => rfl

end Furthers

/-- Registering nodes with the keys `us` in a scope leaves what the visits `vs` need, and the terms
among them have places of their own. -/
structure Furnishes (c : Collection) (scope : ScopeId) (us : List Use) (vs : List Visit)
    (s s' : Resolution) : Prop where
  proper : s'.Proper c
  furthers : s.Furthers c (s.Within scope us) s'
  stated : ∀ v ∈ vs, s'.Stated c v
  fresh : ∀ v ∈ vs, ∀ p, s'.site? v = some p → s.stateIn? p.1 p.2 = none
  nodup : (vs.filterMap s'.site?).Nodup

namespace Furnishes

variable {c : Collection} {scope scope' : ScopeId} {us us' all : List Use} {vs ws : List Visit}
  {s s' s'' : Resolution}

theorem stateIn?_of_site? {v : Visit} (hv : s.Stated c v) {p : ScopeId × NodeKey}
    (hp : s.site? v = some p) : s.stateIn? p.1 p.2 = some (.term none) := by
  cases v with
  | term f key location content =>
    obtain ⟨frame, hf, -, -, -, hst⟩ := hv
    rw [site?, scopeOf_eq hf] at hp
    cases hp
    exact hst
  | _ => cases hp

/-- Terms that come later get other places. -/
theorem nodup_append (h : s.Furnishes c scope us vs s') (hv : ∀ v ∈ ws, s.Stated c v)
    (hn : (ws.filterMap s.site?).Nodup) : ((ws ++ vs).filterMap s'.site?).Nodup := by
  have hsites : ws.filterMap s'.site? = ws.filterMap s.site? :=
    List.filterMap_congr fun v hmem => h.furthers.site?_eq (hv v hmem)
  rw [List.filterMap_append, hsites]
  refine List.nodup_append.2 ⟨hn, h.nodup, ?_⟩
  rintro p hp q hq rfl
  obtain ⟨v, hmem, hvp⟩ := List.mem_filterMap.1 hp
  obtain ⟨w, hw, hwp⟩ := List.mem_filterMap.1 hq
  have hset := stateIn?_of_site? (hv v hmem) hvp
  rw [h.fresh w hw _ hwp] at hset
  cases hset

/-- Registration goes on, perhaps in another scope. -/
theorem append (h : s.Furnishes c scope us vs s') (h' : s'.Furnishes c scope' us' ws s'')
    (hall : ∀ k, .node k ∈ us → .node k ∈ all)
    (hall' : ∀ k, .node k ∈ us' →
      s.registry.scopes.size ≤ scope'.index ∨ (scope' = scope ∧ .node k ∈ all)) :
    s.Furnishes c scope all (vs ++ ws) s'' := by
  refine ⟨h'.proper, h.furthers.append h'.furthers ?_ ?_, ?_, ?_,
    h'.nodup_append h.stated h.nodup⟩
  · rintro σ k (hσ | ⟨rfl, hk⟩)
    · exact .inl hσ
    · exact .inr ⟨rfl, hall k hk⟩
  · rintro σ k (hσ | ⟨rfl, hk⟩)
    · exact .inl (Nat.le_trans h.furthers.scopes hσ)
    · exact hall' k hk
  · intro v hv
    rcases List.mem_append.1 hv with hv | hv
    · exact h'.furthers.stated (h.stated v hv)
    · exact h'.stated v hv
  · intro v hv p hp
    rcases List.mem_append.1 hv with hv | hv
    · exact h.fresh v hv p ((h'.furthers.site?_eq (h.stated v hv)).symm.trans hp)
    · have hnone := h'.fresh v hv p hp
      cases hst : s.stateIn? p.1 p.2 with
      | none => rfl
      | some st =>
        have hsome := h.furthers.kept p.1 p.2 (by rw [hst]; rfl)
        rw [hnone] at hsome
        cases hsome

/-- A step that sets states of nodes, but no term. -/
theorem of_furthers (hs : s'.Proper c) (h : s.Furthers c (s.Within scope us) s')
    (hv : ∀ v ∈ vs, s'.Stated c v) (ht : ∀ v ∈ vs, s'.site? v = none) :
    s.Furnishes c scope us vs s' := by
  refine ⟨hs, h, hv, fun v hmem p hp => ?_, ?_⟩
  · rw [ht v hmem] at hp
    cases hp
  · rw [List.filterMap_eq_nil_iff.2 ht]
    exact .nil

end Furnishes

end Resolution

/-! ## Registering nodes -/

namespace Run

variable {c : Collection} {s : Resolution} {f : FrameId} {frame : Frame}

theorem nextId_safely (hs : s.Proper c) (f : FrameId) (typ : String) :
    Safely c (nextId f typ) s fun _ _ => True := by
  unfold nextId
  refine .get_bind ?_
  dsimp only
  split
  next owner parent document scope ids h =>
    obtain ⟨hproper, hfur⟩ := hs.modifyKind owner
      (fun _ => .document ((typ, ((ids.lookup typ).getD {}).next) :: ids)) fun frame hf => by
        cases (countingFrame?_eq_some h).1.symm.trans hf
        trivial
    exact .set_bind ⟨hproper, hfur⟩ (.pure hproper trivial)
  next owner parent document scope t ids range h =>
    obtain ⟨hproper, hfur⟩ := hs.modifyKind owner (fun _ => .subRange t ids.next range)
      fun frame hf => by
        cases (countingFrame?_eq_some h).1.symm.trans hf
        rfl
    exact .set_bind ⟨hproper, hfur⟩ (.pure hproper trivial)
  · exact .pure hs trivial

theorem requestRange_safely (hs : s.Proper c) (hf : s.frame? f = some frame) (typ : String) :
    Safely c (requestRange f typ) s fun _ s' => s'.Requested frame.document typ := by
  unfold requestRange
  obtain ⟨hproper, hfur⟩ := hs.modifyInfo (s.documentOf f) (fun info =>
    if info.ranges.contains typ then info else { info with ranges := info.ranges ++ [typ] })
    fun info t ht => by
      split
      · exact ht
      · exact List.mem_append_left _ ht
  refine .of_ok rfl ⟨hproper, hfur⟩ ?_
  obtain ⟨info, hinfo⟩ := Option.isSome_iff_exists.1 (hs.documented f frame hf)
  refine ⟨_, (info?_modifyInfo ..).trans (by rw [documentOf_eq hf, if_pos rfl, hinfo]; rfl), ?_⟩
  dsimp only
  split
  next h => simpa using h
  · simp

theorem readEmbedding_safely (hs : s.Proper c) (f : FrameId) (location : Location)
    (text : String) : Safely c (readEmbedding f location text) s fun _ _ => True := by
  unfold readEmbedding
  refine (Safely.ofLink (P := fun _ _ => True) hs fun _ _ => trivial).bind fun link s₁ hs₁ _ _ => ?_
  dsimp only
  split
  · exact .fail_bind hs₁ id
  · exact .get_bind (.ofLink hs₁ fun _ _ => trivial)

theorem requestDocument_safely (hs : s.Proper c) (f : FrameId) (link : Link)
    (location : Location) : Safely c (requestDocument f link location) s fun _ _ => True := by
  unfold requestDocument
  refine .get_bind ?_
  split
  · exact .pure hs trivial
  · split
    · exact .fail hs id
    · exact .of_ok rfl (hs.modifyInfo (s.documentOf f) (fun info =>
        { info with requests := info.requests ++ [{ link, location }] })
        fun info t ht => ht) trivial

theorem headingTags_safely (hs : s.Proper c) (hf : s.frame? f = some frame) (h : Heading) :
    Safely c (headingTags f h) s fun _ _ => True := by
  unfold headingTags
  split
  · exact .pure hs trivial
  · exact (evaluateTag_safely hs hf h.location _).bind fun _ _ hs' _ _ => .pure hs' trivial

/-- The state of a node is set for the first time, behind steps that set none. -/
theorem setNode_spec {s₁ : Resolution} (hs₁ : s₁.Proper c) (h₁ : s.Furthers c Nowhere s₁)
    (hf : s.frame? f = some frame) {key : NodeKey} {state : NodeState} (hst : c.Suits key state)
    (hv : ∀ inner body, state ≠ .value inner body) (hk : c.stock.key key)
    (hfree : s.stateIn? frame.scope key = none) :
    (s₁.setState f key state).Proper c ∧
      s.Furthers c (s.Within frame.scope [.node key]) (s₁.setState f key state) ∧
      s₁.Furthers c (s₁.Within frame.scope [.node key]) (s₁.setState f key state) ∧
      (s₁.setState f key state).stateIn? frame.scope key = some state := by
  obtain ⟨frame₁, hf₁, -, -, hscope, -⟩ := h₁.frame f frame hf
  have hfree₁ : s₁.stateIn? frame₁.scope key = none := by
    have hvacant : s.Vacant frame.scope [.node key] := fun k hmem => by simp_all
    rw [hscope]
    exact h₁.vacant (fun k hmem => by simp_all) hvacant key (by simp)
  obtain ⟨hs₂, h₂⟩ := hs₁.setState hf₁ hst fun _ => hfree₁
  have h₂ : s₁.Furthers c (fun σ k => σ = frame.scope ∧ k = key) (s₁.setState f key state) := by
    refine ⟨hscope ▸ h₂, fun σ k inner body hst => ?_⟩
    rw [stateIn?_setState] at hst
    split at hst
    · exact (hv inner body (Option.some.inj hst)).elim
    · exact .inl hst
  have hwithin : ∀ (s' : Resolution) σ k, (σ = frame.scope ∧ k = key) →
      s'.Within frame.scope [.node key] σ k := by
    rintro s' σ k ⟨rfl, rfl⟩
    exact .inr ⟨rfl, List.mem_singleton_self _⟩
  refine ⟨hs₂, h₁.append h₂ (fun _ _ h => h.elim) (hwithin s), h₂.mono (hwithin s₁), ?_⟩
  rw [stateIn?_setState, scopeOf_eq hf₁, if_pos ⟨hscope.symm, rfl⟩]

/-! ## Nodes that are due -/

/-- Nodes that can be registered in a frame, where the names of less than `n` blocks are not on the
call stack yet: they were written, and none of them has a state there. -/
structure Due (c : Collection) (n : Nat) (s : Resolution) (f : FrameId) (frame : Frame)
    (nodes : List Node) : Prop where
  fine : Fine c.stock s
  proper : s.Proper c
  opened : s.frame? f = some frame
  fits : Node.Fits c.stock nodes
  texts : ∀ t ∈ Node.textsAll nodes, c.HasText t
  vacant : s.Vacant frame.scope (Node.usesAll nodes)
  depth : c.blockNames.dedup.length < n + (s.callStack f).trail.entries.length

variable {enter : FrameId → List Node → Run Unit} {n : Nat} {node : Node} {rest : List Node}

namespace Due

/-- The names on the call stack are different ones, so there are not too many. -/
theorem depth_pos {nodes : List Node} (h : Due c n s f frame nodes) : 0 < n := by
  have hle := h.proper.length_expansions_le h.opened
  rw [← h.proper.length_calls h.opened] at hle
  have hdepth := h.depth
  omega

theorem head (h : Due c n s f frame (node :: rest)) : Due c n s f frame [node] where
  fine := h.fine
  proper := h.proper
  opened := h.opened
  fits := h.fits.head
  texts t ht := h.texts t (List.mem_append_left _ (by simpa [Node.textsAll] using ht))
  vacant k hk := h.vacant k (List.mem_append_left _ (by simpa [Node.usesAll] using hk))
  depth := h.depth

/-- The nodes behind one that was registered. -/
theorem tail (h : Due c n s f frame (node :: rest)) {s₁ : Resolution} (hfine : Fine c.stock s₁)
    {vs : List Visit} (h₁ : s.Furnishes c frame.scope node.uses vs s₁) :
    ∃ frame₁, frame₁.scope = frame.scope ∧ Due c n s₁ f frame₁ rest := by
  obtain ⟨frame₁, hf₁, -, -, hscope, -⟩ := h₁.furthers.frame f frame h.opened
  refine ⟨frame₁, hscope, hfine, h₁.proper, hf₁, h.fits.tail,
    fun t ht => h.texts t (List.mem_append_right _ ht), ?_, ?_⟩
  · rw [hscope]
    refine h₁.furthers.vacant_within (h.proper.scope_lt f frame h.opened)
      (fun k hmem => h.fits.tail.fit.node k hmem) (fun k hmem hin => ?_)
      fun k hmem => h.vacant k (List.mem_append_right _ hmem)
    exact (List.nodup_append.1 h.fits.fit.nodup).2.2 _ hin (.node k) hmem rfl
  · rw [callStack_of_alike h.proper.ordered h₁.proper.ordered h₁.furthers.frame h.opened]
    exact h.depth

end Due

/-! ## Opening frames for nodes -/

/-- What the registration of a labeled node leaves for its visit and for the nodes inside. -/
theorem registerHeading_concludes (hc : c.Described) (hs : s.Proper c)
    (hf : s.frame? f = some frame) {h : Heading} (hk : c.stock.key h.key) (ht : c.HasText h.title)
    (hfree : s.stateIn? frame.scope h.key = none) :
    Concludes c (registerHeading f h) s fun inner s' => s'.Proper c ∧
      s.Furthers c (s.Within frame.scope [.node h.key]) s' ∧
      (∀ entry, s'.Stated c (.heading f h entry inner)) ∧
      (∃ entry, s'.stateIn? frame.scope h.key = some (.labeled entry inner)) ∧
      ∃ fr, s'.frame? inner = some fr ∧ fr.scope = frame.scope ∧
        s'.callStack inner = s.callStack f ∧ s'.expansions inner = s.expansions f := by
  rw [registerHeading_eq]
  refine .get_bind ?_
  dsimp only
  set typ := h.typeIn s.options with htyp
  refine (nextId_safely hs f typ).concludes_bind fun ids s₁ hs₁ h₁ _ => ?_
  obtain ⟨frame₁, hf₁, ha₁⟩ := h₁.frame f frame hf
  refine (headingTags_safely hs₁ hf₁ h).concludes_bind fun tags s₂ hs₂ h₂ _ => ?_
  obtain ⟨frame₂, hf₂, ha₂⟩ := h₂.frame f frame₁ hf₁
  unfold registerUnder
  refine (requestRange_safely hs₂ hf₂ typ).concludes_bind fun _ s₃ hs₃ h₃ hreq => ?_
  obtain ⟨frame₃, hf₃, ha₃⟩ := h₃.frame f frame₂ hf₂
  refine .get_bind ?_
  dsimp only
  refine (registry_safely hs₃ (Registry.registerEntry_ends hs₃.registry _ rfl (by simp)
    _)).concludes_bind fun entry s₄ hs₄ h₄ _ => ?_
  obtain ⟨frame₄, hf₄, ha₄⟩ := h₄.frame f frame₃ hf₃
  refine (registerText_safely hc hs₄ hf₄ ht).concludes_bind fun _ s₅ hs₅ h₅ hheld => ?_
  obtain ⟨frame₅, hf₅, ha₅⟩ := h₅.frame f frame₄ hf₄
  have ha : frame.Alike frame₅ := (((ha₁.trans ha₂).trans ha₃).trans ha₄).trans ha₅
  have h₅' : s.Furthers c Nowhere s₅ := (((h₁.trans h₂).trans h₃).trans h₄).trans h₅
  unfold subRangeFrame
  rw [bind_assoc]
  refine .get_bind ?_
  rw [scopeOf_eq hf₅, documentOf_eq hf₅]
  set opened : Frame := ⟨some f, frame₅.document, frame₅.scope, .subRange (ids.id typ).typ
    (.below (ids.id typ)) none⟩ with hopened
  have hparent : ∀ p, opened.parent = some p → p.index < s₅.frames.size := by
    rintro p ⟨⟩
    exact index_lt_of_frame? hf₅
  refine (pushFrame_safely hs₅ hparent (hs₅.scope_lt f frame₅ hf₅) trivial
    (hs₅.documented f frame₅ hf₅)).concludes_bind fun inner s₆ hs₆ h₆ hinner => ?_
  have h₆' := h₅'.trans h₆
  have hsuits : c.Suits h.key (.labeled entry inner) := hk
  obtain ⟨hs₇, h₇, h₆₇, hset⟩ := setNode_spec hs₆ h₆' hf hsuits (by simp) hk hfree
  obtain ⟨frame₇, hf₇, -, hdoc, hscope, -⟩ := h₇.frame f frame hf
  refine .of_ok rfl hs₇.toFramed ⟨hs₇, h₇, fun entry' => ⟨frame₇, hf₇, ht, ?_, ?_⟩, ⟨entry, hset⟩,
    opened, hinner, ha.2.2.1, ?_, ?_⟩
  · rw [hscope, ← (((ha₁.trans ha₂).trans ha₃).trans ha₄).2.2.1]
    exact h₆₇.held (h₆.held hheld)
  · rw [h₇.options, hdoc, ← (ha₁.trans ha₂).2.1]
    exact h₆₇.requested (h₆.requested (h₅.requested (h₄.requested hreq)))
  · rw [callStack_eq hs₇.ordered (show frame? _ inner = some opened from hinner)]
    exact callStack_of_alike hs.ordered hs₇.ordered h₇.frame hf
  · rw [expansions_eq hs₇.ordered (show frame? _ inner = some opened from hinner)]
    exact expansions_of_alike hs.ordered hs₇.ordered h₇.frame hf

/-- The nodes inside a labeled node are due once that is registered. -/
theorem Due.heading (hc : c.Described) {heading : Heading} {body : List Node}
    (h : Due c n s f frame [.labeled heading body]) :
    Concludes c (registerHeading f heading) s fun inner s' => ∃ entry fr,
      s'.stateIn? frame.scope heading.key = some (.labeled entry inner) ∧
      s.Furnishes c frame.scope [.node heading.key] [.heading f heading entry inner] s' ∧
      fr.scope = frame.scope ∧ s'.callStack inner = s.callStack f ∧
      s'.expansions inner = s.expansions f ∧ Due c n s' inner fr body := by
  have hk : c.stock.key heading.key := fits_key h.fits (by simp [Node.uses])
  have htitle : c.HasText heading.title := h.texts _ (by simp [Node.textsAll, Node.texts])
  have huses : Node.usesAll [.labeled heading body] =
      [.node heading.key] ++ (heading.title.uses ++ Node.usesAll body) := by
    simp [Node.usesAll, Node.uses]
  have hnodup := h.fits.fit.nodup
  rw [huses] at hnodup
  have hfree : s.stateIn? frame.scope heading.key = none := h.vacant heading.key (by simp [huses])
  have hfixed : s.fixed? frame.scope heading.key = none := by rw [fixed?, hfree]; rfl
  refine ((registerHeading_concludes hc h.proper h.opened hk htitle hfree).inspect
    (registerHeading_spec h.fine h.opened hk h.fits.heading h.fits.title hfixed)).mono ?_
  rintro inner s₁ ⟨⟨_, hheaded⟩, hs₁, h₁, hstated, ⟨entry, hset⟩, fr, hi, hscope, hcalls, hexp⟩
  refine ⟨entry, fr, hset, .of_furthers hs₁ h₁ (by simpa using hstated entry) (by simp [site?]),
    hscope, hcalls, hexp, hheaded.registers.fine, hs₁, hi, h.fits.body,
    fun t hmem => h.texts t (by simp [Node.textsAll, Node.texts, hmem]), ?_, hcalls ▸ h.depth⟩
  rw [hscope]
  refine h₁.vacant_within (h.proper.scope_lt f frame h.opened)
    (fun k hmem => h.fits.body.fit.node k hmem) (fun k hmem hin => ?_)
    fun k hmem => h.vacant k (by simp [huses, hmem])
  exact (List.nodup_append.1 hnodup).2.2 _ hin (.node k) (by simp [hmem]) rfl

/-- The nodes of a block are due once its expansion is open, in a scope of their own. -/
theorem Due.expansion {key : NodeKey} {location : Location} {block : String} {tag : Option String}
    {arguments : Table InlineText}
    (h : Due c (n + 1) s f frame [.expansion key location block tag arguments]) :
    Concludes c (openExpansion f location block tag arguments) s fun result s' => ∃ entry fr,
      s.blockFor? f block = some entry ∧ c.HasBlock entry.block ∧ result.2 = entry.block.body ∧
      s.registry.scopes.size ≤ fr.scope.index ∧
      (s'.setState f key (.expansion result.1 result.2)).stateIn? frame.scope key =
        some (.expansion result.1 result.2) ∧
      s.Furnishes c frame.scope [.node key] [.expansion f key location result.1]
        (s'.setState f key (.expansion result.1 result.2)) ∧
      ((s'.setState f key (.expansion result.1 result.2)).callStack result.1).trail.entries =
        (s.callStack f).trail.entries ++ [entry.block.name] ∧
      (s'.setState f key (.expansion result.1 result.2)).expansions result.1 =
        result.1 :: s.expansions f ∧
      Due c n (s'.setState f key (.expansion result.1 result.2)) result.1 fr result.2 := by
  have hk : c.stock.key key := fits_key h.fits (by simp [Node.uses])
  have hfree : s.stateIn? frame.scope key = none := h.vacant key (by simp [Node.usesAll, Node.uses])
  have hargs : ∀ name text, (name, text) ∈ arguments → c.HasText text := fun name text hmem =>
    h.texts text (by
      simpa [Node.textsAll, Node.texts] using ⟨name, hmem⟩)
  refine ((openExpansion_safely h.proper h.opened location block tag hargs).inspect
    (openExpansion_spec f location block tag (fun _ _ ha => h.fits.arguments ha) h.fine
      h.opened)).mono ?_
  rintro ⟨inner, body⟩ s₁ ⟨⟨hq, -, hbody⟩, hs₁, h₁, entry, hentry, hblock, hb, hentered⟩
  obtain ⟨frame₁, hf₁, -, -, hscope₁, -⟩ := h₁.frame f frame h.opened
  have hfixed₁ : s₁.fixed? frame₁.scope key = none := by
    rw [hscope₁, hq.fixed_eq, fixed?, hfree]
    rfl
  have hsuits : c.Suits key (.expansion inner body) := hk
  obtain ⟨hs₂, h₂, -, hset⟩ := setNode_spec hs₁ h₁ h.opened hsuits (by simp) hk hfree
  have hregisters := (setFixed_spec hq.fine hf₁ (.expansion inner body) hk rfl hfixed₁).of_ok rfl
  obtain ⟨fr, calls, hi, hparent, hkind, hcalls, hnew⟩ := hentered.frame
  dsimp only at hb ⊢
  set s₂ := s₁.setState f key (.expansion inner body) with hs₂'
  have hi₂ : s₂.frame? inner = some fr := hi
  have hcalls₂ : (s₂.callStack inner).trail.entries =
      (s.callStack f).trail.entries ++ [entry.block.name] := by
    rw [callStack_eq hs₂.ordered hi₂, hkind]
    exact hcalls
  have hexp : s₂.expansions inner = inner :: s.expansions f := by
    rw [expansions_eq hs₂.ordered hi₂, hkind, hparent]
    exact congrArg _ (expansions_of_alike h.proper.ordered hs₂.ordered h₂.frame h.opened)
  refine ⟨entry, fr, hentry, hblock, hb, hnew, hset, .of_furthers hs₂ h₂ (by simp [Stated])
    (by simp [site?]), hcalls₂, hexp, hregisters.1.fine, hs₂, hi₂, hbody,
    fun t ht => hblock.body (hb ▸ ht), ?_, ?_⟩
  · -- no node has a state in a scope that was just opened
    refine Vacant.setState (h₁.vacant (fun k hmem => hbody.fit.node k hmem)
      (h.proper.vacant hnew _)) (fun heq => ?_) key _
    have := h.proper.scope_lt f frame h.opened
    rw [heq, scopeOf_eq hf₁, hscope₁] at hnew
    omega
  · have hdepth := h.depth
    rw [hcalls₂, List.length_append, List.length_singleton]
    omega

/-! ## Registering nodes -/

/-- Registering the nodes furnishes the visits of their walk. -/
def Secures (c : Collection) (n : Nat) (register : FrameId → Run Unit) (nodes : List Node) : Prop :=
  ∀ f s frame, Due c n s f frame nodes →
    Concludes c (register f) s fun _ s' => Fine c.stock s' ∧ ∃ vs,
      Walk s' f nodes vs ∧ s.Furnishes c frame.scope (Node.usesAll nodes) vs s'

theorem registerText_concludes (hc : c.Described) {content : InlineText}
    (h : Due c n s f frame [.text content]) :
    Concludes c (registerNode enter f (.text content)) s fun _ s' =>
      ∀ vs, Walk s' f [.text content] vs →
        s.Furnishes c frame.scope (Node.uses (.text content)) vs s' := by
  have ht : c.HasText content := h.texts _ (by simp [Node.textsAll, Node.texts])
  unfold registerNode
  refine Concludes.mono (registerText_safely hc h.proper h.opened ht)
    fun _ s' ⟨hs', h', hheld⟩ vs hw => ?_
  cases hw with
  | text _ _ hr =>
    cases hr
    obtain ⟨frame', hf', -, -, hscope, -⟩ := h'.frame f frame h.opened
    refine .of_furthers hs' (h'.mono fun _ _ h => h.elim) (fun v hv => ?_) fun v hv => ?_
    · cases List.mem_singleton.1 hv
      exact ⟨frame', hf', ht, hscope ▸ hheld⟩
    · cases List.mem_singleton.1 hv
      rfl

theorem registerEmbedding_concludes {key : NodeKey} {location : Location} {written : String}
    (h : Due c n s f frame [.embedding key location written]) :
    Concludes c (registerNode enter f (.embedding key location written)) s fun _ s' =>
      ∀ vs, Walk s' f [.embedding key location written] vs →
        s.Furnishes c frame.scope (Node.uses (.embedding key location written)) vs s' := by
  have hk : c.stock.key key := fits_key h.fits (by simp [Node.uses])
  have hfree : s.stateIn? frame.scope key = none := h.vacant key (by simp [Node.usesAll, Node.uses])
  unfold registerNode registerEmbedding
  refine .get_bind ?_
  dsimp only
  refine (nextId_safely h.proper f s.options.sectionType).concludes_bind fun _ s₁ hs₁ h₁ _ => ?_
  obtain ⟨frame₁, hf₁, ha₁⟩ := h₁.frame f frame h.opened
  refine (requestRange_safely hs₁ hf₁ _).concludes_bind fun _ s₂ hs₂ h₂ hreq => ?_
  refine (readEmbedding_safely hs₂ f location written).concludes_bind fun link s₃ hs₃ h₃ _ => ?_
  refine (requestDocument_safely hs₃ f link location).concludes_bind fun _ s₄ hs₄ h₄ _ => ?_
  have hsuits : c.Suits key (.embedding link) := hk
  obtain ⟨hs₅, h₅, h₄₅, -⟩ :=
    setNode_spec hs₄ (((h₁.trans h₂).trans h₃).trans h₄) h.opened hsuits (by simp) hk hfree
  refine .of_ok rfl hs₅.toFramed fun vs hw => ?_
  cases hw with
  | embedding _ _ _ _ _ _ hr =>
    cases hr
    obtain ⟨frame₅, hf₅, -, hdoc, -⟩ := h₅.frame f frame h.opened
    refine .of_furthers hs₅ h₅ (fun v hv => ?_) fun v hv => ?_
    · cases List.mem_singleton.1 hv
      refine ⟨frame₅, hf₅, ?_⟩
      rw [h₅.options, hdoc, ← ha₁.2.1]
      exact h₄₅.requested (h₄.requested (h₃.requested hreq))
    · cases List.mem_singleton.1 hv
      rfl

theorem registerTerm_concludes (hc : c.Described) {key : NodeKey} {location : Location}
    {tag : String} {content : InlineText} (h : Due c n s f frame [.term key location tag content]) :
    Concludes c (registerNode enter f (.term key location tag content)) s fun _ s' =>
      ∀ vs, Walk s' f [.term key location tag content] vs →
        s.Furnishes c frame.scope (Node.uses (.term key location tag content)) vs s' := by
  have hk : c.stock.key key := fits_key h.fits (by simp [Node.uses])
  have ht : c.HasText content := h.texts _ (by simp [Node.textsAll, Node.texts])
  have hfree : s.stateIn? frame.scope key = none := h.vacant key (by simp [Node.usesAll, Node.uses])
  unfold registerNode registerTerm
  refine (evaluateTag_safely h.proper h.opened location tag).concludes_bind
    fun evaluated s₁ hs₁ h₁ _ => ?_
  dsimp only
  refine .get_bind ?_
  refine (registry_safely hs₁ (Registry.registerTag_ends _ termType _ _ _)).concludes_bind
    fun _ s₂ hs₂ h₂ _ => ?_
  have hsuits : c.Suits key (.term none) := ⟨hk, rfl⟩
  obtain ⟨hs₃, h₃, -, hset⟩ := setNode_spec hs₂ (h₁.trans h₂) h.opened hsuits (by simp) hk hfree
  obtain ⟨frame₃, hf₃, -, -, hscope₃, -⟩ := h₃.frame f frame h.opened
  refine .modify_bind (.mono (registerText_safely hc hs₃ hf₃ ht)
    fun _ s₄ ⟨hs₄, h₄, hheld⟩ vs hw => ?_)
  cases hw with
  | term _ _ _ _ _ hr =>
    cases hr
    have h₄' := h₃.before h₄
    obtain ⟨frame₄, hf₄, -, -, hscope, -⟩ := h₄'.frame f frame h.opened
    refine ⟨hs₄, h₄'.mono fun σ k h => ?_, fun v hv => ?_, fun v hv p hp => ?_, ?_⟩
    · exact h.imp_right fun h => ⟨h.1, by simp_all [Node.uses]⟩
    · cases List.mem_singleton.1 hv
      refine ⟨frame₄, hf₄, ht, by rw [hscope, ← hscope₃]; exact hheld, hk, ?_⟩
      rw [hscope]
      exact h₄.node _ _ _ hk hset
    · cases List.mem_singleton.1 hv
      rw [site?, scopeOf_eq hf₄, hscope] at hp
      cases hp
      exact hfree
    · simp [site?]

/-- An expansion is registered before the nodes of its block, and these in a scope of their own. -/
theorem registerExpansion_concludes (hsec : ∀ nodes, Secures c n (fun f => enter f nodes) nodes)
    {key : NodeKey} {location : Location} {block : String} {tag : Option String}
    {arguments : Table InlineText}
    (h : Due c (n + 1) s f frame [.expansion key location block tag arguments]) :
    Concludes c (registerNode enter f (.expansion key location block tag arguments)) s fun _ s' =>
      ∀ vs, Walk s' f [.expansion key location block tag arguments] vs →
        s.Furnishes c frame.scope (Node.uses (.expansion key location block tag arguments)) vs
          s' := by
  have hk : c.stock.key key := fits_key h.fits (by simp [Node.uses])
  unfold registerNode
  refine h.expansion.bind ?_
  rintro ⟨inner, body⟩ s₁ ⟨entry, fr, -, -, -, hnew, hset, h₂, -, -, hdue⟩
  refine .modify_bind ((hsec body inner _ fr hdue).mono ?_)
  rintro _ s₃ ⟨-, ws, hws, h₃⟩ vs hw
  cases hw with
  | expansion _ _ _ _ _ _ hst hin hb hr =>
    cases hr
    obtain ⟨frame₃, hf₃, -, -, hscope₃, -⟩ := (h₂.furthers.append (U := fun _ _ => True)
      h₃.furthers (fun _ _ _ => trivial) fun _ _ _ => trivial).frame f frame h.opened
    have hset₃ : s₃.stateIn? frame₃.scope key = some (.expansion inner body) := by
      rw [hscope₃]
      exact h₃.furthers.node _ _ _ hk hset
    cases hst.eq_of_stateIn? hf₃ hset₃
    cases hws.unique hb
    rw [List.append_nil]
    refine h₂.append h₃ (fun k hk => List.mem_cons.2 ?_) fun k _ => .inl hnew
    exact .inl (by simpa using hk)

/-- A labeled node is registered before its body, and that in the same scope. -/
theorem registerLabeled_concludes (hc : c.Described) {heading : Heading} {body : List Node}
    (h : Due c n s f frame [.labeled heading body])
    (hbody : Secures c n (fun inner => registerNodes enter inner body) body) :
    Concludes c (registerNode enter f (.labeled heading body)) s fun _ s' =>
      ∀ vs, Walk s' f [.labeled heading body] vs →
        s.Furnishes c frame.scope (Node.uses (.labeled heading body)) vs s' := by
  have hk : c.stock.key heading.key := fits_key h.fits (by simp [Node.uses])
  unfold registerNode
  refine (h.heading hc).bind ?_
  rintro inner s₁ ⟨entry, fr, hset, h₁, hscope, -, -, hdue⟩
  refine (hbody inner s₁ fr hdue).mono ?_
  rintro _ s₂ ⟨-, ws, hws, h₂⟩ vs hw
  cases hw with
  | labeled _ _ hst _ _ hb hr =>
    cases hr
    obtain ⟨frame₁, hf₁, ha₁⟩ := h₁.furthers.frame f frame h.opened
    obtain ⟨frame₂, hf₂, ha₂⟩ := h₂.furthers.frame f frame₁ hf₁
    have hset₂ : s₂.stateIn? frame₂.scope heading.key = some (.labeled entry inner) := by
      rw [(ha₁.trans ha₂).2.2.1]
      exact h₂.furthers.node _ _ _ hk hset
    cases hst.eq_of_stateIn? hf₂ hset₂
    cases hws.unique hb
    rw [List.append_nil]
    refine h₁.append h₂ (fun k hk => ?_) fun k hk => .inr ⟨hscope, ?_⟩
    · simp [Node.uses, List.mem_singleton.1 hk]
    · simp [Node.uses, hk]

/-- What holds of every walk holds of the one that registration makes. -/
theorem concludes_of_walks (he : Registering c.stock enter) (hdue : Due c n s f frame [node])
    (h : Concludes c (registerNode enter f node) s fun _ s' =>
      ∀ vs, Walk s' f [node] vs → s.Furnishes c frame.scope node.uses vs s') :
    Concludes c (registerNode enter f node) s fun _ s' => Fine c.stock s' ∧ ∃ vs,
      Walk s' f [node] vs ∧ s.Furnishes c frame.scope node.uses vs s' := by
  have hvacant : s.Vacant frame.scope node.uses := fun k hk =>
    hdue.vacant k (by simpa [Node.usesAll] using hk)
  refine (h.inspect (registerNode_spec he node f s frame hdue.fine hdue.opened hdue.fits
    hvacant.free)).mono ?_
  rintro _ s' ⟨⟨vs, hr, hw⟩, hfur⟩
  exact ⟨hr.fine, vs, hw, hfur vs hw⟩

mutual

theorem registerNode_concludes (hc : c.Described) (he : Registering c.stock enter)
    (hsec : ∀ nodes, Secures c n (fun f => enter f nodes) nodes) : ∀ (node : Node) f s frame,
    Due c (n + 1) s f frame [node] →
    Concludes c (registerNode enter f node) s fun _ s' => Fine c.stock s' ∧ ∃ vs,
      Walk s' f [node] vs ∧ s.Furnishes c frame.scope node.uses vs s'
  | .text _ => fun _ _ _ h => concludes_of_walks he h (registerText_concludes hc h)
  | .labeled _ body => fun _ _ _ h => concludes_of_walks he h
    (registerLabeled_concludes hc h (registerNodes_concludes hc he hsec body))
  | .embedding .. => fun _ _ _ h => concludes_of_walks he h (registerEmbedding_concludes h)
  | .expansion .. => fun _ _ _ h => concludes_of_walks he h (registerExpansion_concludes hsec h)
  | .term .. => fun _ _ _ h => concludes_of_walks he h (registerTerm_concludes hc h)
  | .probe .. => fun _ _ _ h => by simpa [Node.asksAny, Node.asks] using h.fits.quiet

theorem registerNodes_concludes (hc : c.Described) (he : Registering c.stock enter)
    (hsec : ∀ nodes, Secures c n (fun f => enter f nodes) nodes) : ∀ nodes : List Node,
    Secures c (n + 1) (fun f => registerNodes enter f nodes) nodes
  | [] => by
    intro f s frame h
    refine .of_ok rfl h.proper.toFramed
      ⟨h.fine, [], .nil f, .of_furthers h.proper ?_ (by simp) (by simp)⟩
    exact (Furthers.refl s).mono fun _ _ h => h.elim
  | node :: rest => by
    intro f s frame h
    dsimp only
    unfold registerNodes
    refine (registerNode_concludes hc he hsec node f s frame h.head).bind ?_
    rintro _ s₁ ⟨hfine₁, vs, hw₁, h₁⟩
    obtain ⟨frame₁, hscope, hdue⟩ := h.tail hfine₁ h₁
    have hold :=
      registerNodes_spec he rest f s₁ frame₁ hfine₁ hdue.opened hdue.fits hdue.vacant.free
    refine ((registerNodes_concludes hc he hsec rest f s₁ frame₁ hdue).inspect hold).mono ?_
    rintro _ s₂ ⟨⟨_, hr, _⟩, hfine₂, ws, hw₂, h₂⟩
    rw [hscope] at h₂
    refine ⟨hfine₂, vs ++ ws, (hw₁.keeps hr.keeps).cons hw₂, h₁.append h₂ (fun k hk => ?_)
      fun k hk => .inr ⟨rfl, ?_⟩⟩
    · exact List.mem_append_left _ hk
    · exact List.mem_append_right _ hk

end

/-- Expansions that lie in one another belong to different blocks, so there are not too many. -/
theorem registerWithin_concludes (hc : c.Described) (fuel : Nat) (nodes : List Node) :
    Secures c fuel (fun f => registerWithin fuel f nodes) nodes := by
  induction fuel generalizing nodes with
  | zero =>
    intro f s frame h
    exact absurd h.depth_pos (Nat.lt_irrefl 0)
  | succ fuel ih => exact registerNodes_concludes hc (registering_registerWithin fuel) ih nodes

end Run

end Folio
