import Folio.Proofs.Resolution.Equipped
import Mathlib.Logic.Relation

/-!
# Stations of registration

Registration comes to node after node. A `Station` is a point in it: the nodes that are registered
next, the frame and the state for that, and the expansions that are under way. A station leads to
the one behind its first node, and to the one inside that node (`Station.Leads`). All stations of a
collection arise in this way from those at the beginnings of documents (`Collection.Meets`).

At every station the nodes are due, and the frames say which expansions are under way: those around
the frame are these, and the call stack holds the names of their blocks (`Station.Tracked`). What
stops registration at a station stops it altogether (`Collection.Meets.registerAll_error`).
-/

namespace Folio

open Resolution

/-- A point that registration comes to. -/
structure Station where
  /-- How many expansions may still lie in one another. -/
  depth : Nat
  /-- The expansions that are under way, the innermost first: their frames and their blocks. -/
  around : List (FrameId × Block)
  state : Resolution
  frame : FrameId
  /-- What is registered next. -/
  nodes : List Node

namespace Station

/-- The nodes behind or inside the first node of a station come next. -/
inductive Leads : Station → Station → Prop
  | behind {n : Nat} {around : List (FrameId × Block)} {s s' : Resolution} {f : FrameId}
      {node : Node} {rest : List Node} :
      Run.registerNode (Run.registerWithin n) f node s = .ok () s' →
      Leads ⟨n + 1, around, s, f, node :: rest⟩ ⟨n + 1, around, s', f, rest⟩
  | body {n : Nat} {around : List (FrameId × Block)} {s s' : Resolution} {f inner : FrameId}
      {heading : Heading} {body rest : List Node} :
      Run.registerHeading f heading s = .ok inner s' →
      Leads ⟨n + 1, around, s, f, .labeled heading body :: rest⟩ ⟨n + 1, around, s', inner, body⟩
  | block {n : Nat} {around : List (FrameId × Block)} {s s' : Resolution} {f inner : FrameId}
      {key : NodeKey} {location : Location} {block : String} {tag : Option String}
      {arguments : Table InlineText} {entry : BlockEntry} {body rest : List Node} :
      s.blockFor? f block = some entry →
      Run.openExpansion f location block tag arguments s = .ok (inner, body) s' →
      Leads ⟨n + 1, around, s, f, .expansion key location block tag arguments :: rest⟩
        ⟨n, (inner, entry.block) :: around, s'.setState f key (.expansion inner body), inner, body⟩

/-- The station behind the first node. -/
def behind? : Station → Option Station
  | ⟨n + 1, around, s, f, node :: rest⟩ =>
    match Run.registerNode (Run.registerWithin n) f node s with
    | .ok _ s' => some ⟨n + 1, around, s', f, rest⟩
    | .error .. => none
  | _ => none

/-- The station inside the first node, if that is an expansion. -/
def inside? : Station → Option Station
  | ⟨n + 1, around, s, f, .expansion key location block tag arguments :: _⟩ =>
    match s.blockFor? f block, Run.openExpansion f location block tag arguments s with
    | some entry, .ok (inner, body) s' => some
      ⟨n, (inner, entry.block) :: around, s'.setState f key (.expansion inner body), inner, body⟩
    | _, _ => none
  | _ => none

theorem leads_of_behind? {x y : Station} (h : x.behind? = some y) : x.Leads y := by
  unfold behind? at h
  split at h
  · split at h
    next hs =>
      cases h
      exact .behind hs
    · cases h
  · cases h

theorem leads_of_inside? {x y : Station} (h : x.inside? = some y) : x.Leads y := by
  unfold inside? at h
  split at h
  · split at h
    next hentry hs =>
      cases h
      exact .block hentry hs
    · cases h
  · cases h

/-- The blocks that are being expanded, the innermost first. -/
def blocks (x : Station) : List Block := x.around.map Prod.snd

/-- The nodes are due, and the frames tell the expansions that are under way. -/
structure Tracked (c : Collection) (x : Station) : Prop where
  due : ∃ frame, Run.Due c x.depth x.state x.frame frame x.nodes
  expansions : x.state.expansions x.frame = x.around.map Prod.fst
  calls : (x.state.callStack x.frame).trail.entries = (x.blocks.map Block.name).reverse
  known : ∀ b ∈ x.blocks, c.HasBlock b

variable {c : Collection} {x y : Station}

/-- What a station leads to is tracked as well. -/
theorem Tracked.leads (hc : c.Described) (h : x.Tracked c) (hxy : x.Leads y) : y.Tracked c := by
  obtain ⟨⟨frame, hdue⟩, hexp, hcalls, hknown⟩ := h
  cases hxy with
  | @behind n around s s' f node rest hs' =>
    obtain ⟨hfine, vs, -, hfurnishes⟩ := (Run.registerNode_concludes hc
      (Run.registering_registerWithin n) (Run.registerWithin_concludes hc n) node f s frame
      hdue.head).ends.of_ok hs'
    obtain ⟨frame', -, hdue'⟩ := hdue.tail hfine hfurnishes
    have halike := hfurnishes.furthers.frame
    refine ⟨⟨frame', hdue'⟩, ?_, ?_, hknown⟩
    · exact (expansions_of_alike hdue.proper.ordered hdue'.proper.ordered halike hdue.opened).trans
        hexp
    · have heq := callStack_of_alike hdue.proper.ordered hdue'.proper.ordered halike hdue.opened
      exact (congrArg (·.trail.entries) heq).trans hcalls
  | body hs' =>
    obtain ⟨_, fr, -, -, -, hcalls', hexp', hdue'⟩ := (hdue.head.heading hc).ends.of_ok hs'
    exact ⟨⟨fr, hdue'⟩, hexp'.trans hexp, (congrArg (·.trail.entries) hcalls').trans hcalls, hknown⟩
  | @block n around s s' f inner key location block tag arguments entry body rest hentry hs' =>
    obtain ⟨entry', fr, hentry', hblock, -, -, -, -, hcalls', hexp', hdue'⟩ :=
      hdue.head.expansion.ends.of_ok hs'
    cases hentry.symm.trans hentry'
    refine ⟨⟨fr, hdue'⟩, ?_, ?_, List.forall_mem_cons.2 ⟨hblock, hknown⟩⟩
    · exact hexp'.trans (congrArg (inner :: ·) hexp)
    · dsimp only [blocks] at hcalls hcalls' ⊢
      rw [hcalls', hcalls, List.map_cons, List.map_cons, List.reverse_cons]

/-- Registering what is next at a station. -/
def register (x : Station) : EStateM.Result ResolveError Resolution Unit :=
  Run.registerWithin x.depth x.frame x.nodes x.state

/-- What stops registration inside or behind a node stops it at the node. -/
theorem Leads.error (hxy : x.Leads y) {e : ResolveError} {t : Resolution}
    (h : y.register = .error e t) : x.register = .error e t := by
  unfold register at h ⊢
  cases hxy with
  | behind hs' =>
    unfold Run.registerWithin Run.registerNodes
    exact (bind_of_ok hs').trans h
  | body hs' =>
    unfold Run.registerWithin Run.registerNodes Run.registerNode
    exact bind_of_error ((bind_of_ok hs').trans h)
  | block hentry hs' =>
    unfold Run.registerWithin Run.registerNodes Run.registerNode
    exact bind_of_error ((bind_of_ok hs').trans h)

end Station

namespace Run

/-- Registers everything before the nodes of the document in one place of the order. The answer is
that document. -/
def registerUntil (depth : Nat) (ds : List Document) (k : Nat) :
    Run (Option (String × DocumentInfo)) := do
  ds.forM addDocument
  let infos := (← get).documents
  infos.forM fun (_, info) => registerBlocks info.scope info.frame info.document.blocks
  match infos[k]? with
  | none => return none
  | some p => do
    (infos.take k).forM (registerDocument depth)
    p.2.document.settings.keys.forM (requestRange p.2.frame)
    return some p

theorem exists_of_registerUntil {depth k : Nat} {ds : List Document}
    {p : String × DocumentInfo} {s s' : Resolution}
    (h : registerUntil depth ds k s = .ok (some p) s') : ∃ s₁ s₂ s₃ pre post,
      ds.forM addDocument s = .ok () s₁ ∧
      (s₁.documents.forM fun (_, info) =>
        registerBlocks info.scope info.frame info.document.blocks : Run Unit) s₁ = .ok () s₂ ∧
      pre ++ p :: post = s₁.documents ∧
      pre.forM (registerDocument depth) s₂ = .ok () s₃ ∧
      p.2.document.settings.keys.forM (requestRange p.2.frame) s₃ = .ok () s' := by
  obtain ⟨_, s₁, h₁, h⟩ := exists_of_bind_ok h
  obtain ⟨_, _, hget, h⟩ := exists_of_bind_ok h
  cases hget
  obtain ⟨_, s₂, h₂, h⟩ := exists_of_bind_ok h
  cases hat : s₁.documents[k]? with
  | none =>
    rw [hat] at h
    cases h
  | some q =>
    rw [hat] at h
    obtain ⟨_, s₃, h₃, h⟩ := exists_of_bind_ok h
    obtain ⟨_, s₄, h₄, h⟩ := exists_of_bind_ok h
    cases h
    obtain ⟨hlt, rfl⟩ := List.getElem?_eq_some_iff.1 hat
    refine ⟨s₁, s₂, s₃, _, s₁.documents.drop (k + 1), h₁, h₂, ?_, h₃, h₄⟩
    rw [List.getElem_cons_drop, List.take_append_drop]

end Run

namespace Collection

variable {c : Collection} {x y : Station}

/-- Where registration comes to the nodes of the document in one place of the order. -/
def start? (c : Collection) (k : Nat) : Option Station :=
  let ds := c.documents.map Prod.snd
  match Run.registerUntil (Run.depthFor ds) ds k c.start with
  | .ok (some p) s => some ⟨Run.depthFor ds, [], s, p.2.frame, p.2.document.nodes⟩
  | _ => none

/-- Registration comes to the nodes of a document. -/
def Starts (c : Collection) (x : Station) : Prop := ∃ k, c.start? k = some x

theorem Starts.exists (h : c.Starts x) : ∃ k p s,
    Run.registerUntil (Run.depthFor (c.documents.map Prod.snd)) (c.documents.map Prod.snd) k
      c.start = .ok (some p) s ∧
    x = ⟨Run.depthFor (c.documents.map Prod.snd), [], s, p.2.frame, p.2.document.nodes⟩ := by
  obtain ⟨k, hk⟩ := h
  dsimp only [start?] at hk
  split at hk
  next p s hs =>
    cases hk
    exact ⟨k, p, s, hs, rfl⟩
  · cases hk

/-- Registration comes to a station. -/
def Meets (c : Collection) (x : Station) : Prop :=
  ∃ x₀, c.Starts x₀ ∧ Relation.ReflTransGen Station.Leads x₀ x

theorem Meets.of_start? {k : Nat} (h : c.start? k = some x) : c.Meets x := ⟨x, ⟨k, h⟩, .refl⟩

theorem Meets.leads (h : c.Meets x) (hxy : x.Leads y) : c.Meets y := by
  obtain ⟨x₀, hstart, hreach⟩ := h
  exact ⟨x₀, hstart, hreach.tail hxy⟩

/-- The nodes of a document begin in its frame, with its scope. -/
theorem Starts.exists_due (hc : c.Described) (h : c.Starts x) : ∃ s₁ p frame,
    (c.documents.map Prod.snd).forM Run.addDocument c.start = .ok () s₁ ∧
      Known c.options (c.documents.map Prod.snd) s₁ ∧ p ∈ s₁.documents ∧
      x.around = [] ∧ x.nodes = p.2.document.nodes ∧ frame.scope = p.2.scope ∧
      Run.Due c x.depth x.state x.frame frame x.nodes ∧ x.state.callStack x.frame = {} ∧
      x.state.expansions x.frame = [] := by
  obtain ⟨k, p, s, hs, rfl⟩ := h.exists
  obtain ⟨s₁, s₂, s₃, pre, post, h₁, h₂, hsplit, h₃, h₄⟩ := Run.exists_of_registerUntil hs
  obtain ⟨hk, hs₁⟩ := ((Run.addDocuments_concludes _).inspect
    (Run.addDocuments_spec c hc.sorted_paths)).ends.of_ok h₁
  have hne : s₁.documents ≠ [] := by simp [← hsplit]
  have hbegin : Run.Partway c s₁ [] (pre ++ p :: post) s₂ :=
    hsplit ▸ (Run.blocks_concludes hc hk hs₁ hne).ends.of_ok h₂
  have hbefore : Run.Partway c s₁ pre (p :: post) s₃ := by
    have hall := Ends.forM_split (R := ResolveError.External)
      (f := Run.registerDocument (Run.depthFor (c.documents.map Prod.snd)))
      (J := fun done left s => Run.Partway c s₁ done (left ++ p :: post) s)
      (fun done q left s hpre h => ?_) hbegin
    · exact hall.of_ok h₃
    · have hall : done ++ q :: (left ++ p :: post) = s₁.documents := by
        rw [← List.cons_append, ← List.append_assoc, hpre, hsplit]
      exact (Run.Partway.document hc hk hall h Run.length_blockNames_lt_depthFor).ends
  obtain ⟨-, -, hcalls, hexp, frame, -, hscope, hdue⟩ := (Run.Partway.settings hc hk hsplit hbefore
    Run.length_blockNames_lt_depthFor).ends.of_ok h₄
  exact ⟨s₁, p, frame, h₁, hk, by simp [← hsplit], rfl, rfl, hscope, hdue, hcalls, hexp⟩

/-- No expansion is under way where the nodes of a document begin. -/
theorem Starts.tracked (hc : c.Described) (h : c.Starts x) : x.Tracked c := by
  obtain ⟨-, -, frame, -, -, -, haround, -, -, hdue, hcalls, hexp⟩ := h.exists_due hc
  refine ⟨⟨frame, hdue⟩, ?_, ?_, ?_⟩
  · rw [hexp, haround]
    rfl
  · rw [hcalls, Station.blocks, haround]
    rfl
  · simp [Station.blocks, haround]

theorem Meets.tracked (hc : c.Described) (h : c.Meets x) : x.Tracked c := by
  obtain ⟨x₀, hstart, hreach⟩ := h
  induction hreach with
  | refl => exact hstart.tracked hc
  | tail _ hxy ih => exact ih.leads hc hxy

/-- What stops registration in a document stops it altogether. -/
theorem Starts.registerAll_error (h : c.Starts x) {e : ResolveError} {t : Resolution}
    (he : x.register = .error e t) :
    Run.registerAll (c.documents.map Prod.snd) c.start = .error e t := by
  obtain ⟨k, p, s, hs, rfl⟩ := h.exists
  obtain ⟨s₁, s₂, s₃, pre, post, h₁, h₂, hsplit, h₃, h₄⟩ := Run.exists_of_registerUntil hs
  rw [Run.registerAll_eq]
  refine (bind_of_ok h₁).trans ((bind_of_ok h₂).trans ?_)
  have hrest : ((p :: post).forM (Run.registerDocument
      (Run.depthFor (c.documents.map Prod.snd)))) s₃ = .error e t :=
    bind_of_error ((bind_of_ok h₄).trans he)
  rw [← hsplit]
  exact (congrFun List.forM_append s₂).trans ((bind_of_ok h₃).trans hrest)

/-- What stops registration somewhere stops it altogether. -/
theorem Meets.registerAll_error (h : c.Meets x) {e : ResolveError} {t : Resolution}
    (he : x.register = .error e t) :
    Run.registerAll (c.documents.map Prod.snd) c.start = .error e t := by
  obtain ⟨x₀, hstart, hreach⟩ := h
  refine hstart.registerAll_error ?_
  clear hstart
  induction hreach using Relation.ReflTransGen.head_induction_on with
  | refl => exact he
  | head hxy _ ih => exact hxy.error ih

end Collection

end Folio
