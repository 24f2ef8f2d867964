import Folio.Proofs.Resolution.Opening

/-!
# Scopes without names

The scope of a document has no name, and by that it is recognised: a tag in a scope without a name
is one of a document, and scopes without names put nothing in front of the tags that they hand on.
The scope of an expansion has a name, unless the tag of the block reference is empty once its
substitutions are replaced.

As long as no reference has such a tag, scopes without names are those of documents, and whether a
tag is one of a document depends on whether an expansion is under way
(`Collection.Described.unnamed_iff`). An empty tag makes an expansion look like a document
(`Collection.not_forall_unnamed_iff`).
-/

namespace Folio

open Resolution

mutual

/-- The tags of the block references in a node. -/
def Node.expansionTags : Node → List (Option String)
  | .labeled _ body => Node.expansionTagsAll body
  | .expansion _ _ _ tag _ => [tag]
  | .probe _ _ _ body => Node.expansionTagsAll body
  | _ => []

/-- The tags of the block references in nodes. -/
def Node.expansionTagsAll : List Node → List (Option String)
  | [] => []
  | n :: rest => n.expansionTags ++ Node.expansionTagsAll rest

end

/-- The tags of the block references of a collection, as they are written. -/
def Collection.expansionTags (c : Collection) : List (Option String) :=
  c.documents.flatMap fun p => Node.expansionTagsAll p.2.nodes ++
    (Block.all p.2.blocks).flatMap fun b => Node.expansionTagsAll b.body

/-! ## Tags with and without substitutions -/

namespace Run

variable (f : FrameId) (location : Location) (tag : String)

/-- Without a brace, a tag stays as it is. -/
theorem substitute_of_not_mem (inDocument : Bool) {cs : List Char} (h : '\x7b' ∉ cs)
    (read : String × Bool) (s : Resolution) :
    substitute f location inDocument tag none read cs s =
      .ok (read.1 ++ String.ofList cs, read.2) s := by
  induction cs generalizing read with
  | nil => exact congrArg (EStateM.Result.ok · s) (by simp)
  | cons c cs ih =>
    obtain ⟨read, explicit⟩ := read
    rw [List.mem_cons, not_or] at h
    unfold substitute
    rw [if_pos (Ne.symm h.1), ih h.2]
    refine congrArg (fun text => EStateM.Result.ok (text, explicit) s) (String.toList_injective ?_)
    simp

/-- In the scope of a document, a brace is refused. -/
theorem substitute_inDocument {cs : List Char} (h : '\x7b' ∈ cs) (read : String × Bool)
    (s : Resolution) : substitute f location true tag none read cs s =
      .error (.located location (.tag .documentScope)) s := by
  induction cs generalizing read with
  | nil => cases h
  | cons c cs ih =>
    obtain ⟨read, explicit⟩ := read
    unfold substitute
    split
    next hne =>
      exact ih ((List.mem_cons.1 h).resolve_left fun heq => hne heq.symm) _
    · rfl

/-- Elsewhere, a tag gets explicit by a substitution. -/
theorem substitute_explicit {name : Option (List Char)} {read : String × Bool} {cs : List Char}
    {s s' : Resolution} {answer : String × Bool}
    (h : substitute f location false tag name read cs s = .ok answer s') :
    answer.2 = true ↔ read.2 = true ∨ name.isSome ∨ '\x7b' ∈ cs := by
  induction cs generalizing name read s with
  | nil =>
    obtain ⟨read, explicit⟩ := read
    cases name with
    | none =>
      cases h
      simp
    | some name => cases h
  | cons c cs ih =>
    obtain ⟨read, explicit⟩ := read
    unfold substitute at h
    cases name with
    | none =>
      dsimp only at h
      split at h
      next hne => simpa [Ne.symm hne] using ih h
      next heq =>
        have hbrace := ih h
        simp_all
    | some name =>
      dsimp only at h
      split at h
      next hne => simpa using ih h
      next heq =>
        split at h
        · cases h
        · obtain ⟨text, s₁, -, h⟩ := exists_of_bind_ok h
          split at h
          · cases h
          · simpa using ih h

/-- Whether the tag is one of a document is told by the name of the scope. -/
theorem evaluateTag_eq {s : Resolution} {sc : Scope}
    (hσ : s.registry.scope? (s.scopeOf f) = some sc) :
    evaluateTag f location tag s = substitute f location (decide (sc.name = "")) tag none
      ("", decide (sc.name = "")) tag.toList s := by
  refine (bind_of_ok rfl).trans ?_
  rw [hσ]
  rfl

/-- A numbered name is never empty. -/
theorem expansionName_eq_empty {s : Resolution} {f : FrameId} {entry : BlockEntry}
    {tag : Option String} : expansionName s f entry tag = "" ↔ tag = some "" := by
  cases tag with
  | some tag => simp [expansionName]
  | none => simp [expansionName, Registry.numbered]

end Run

/-! ## The scopes that nodes are registered in -/

namespace Collection

variable {c : Collection} {x y : Station} {ref : Reference}

/-- Scopes and documents stay in their places while nodes are registered. -/
theorem sustains_stays (c : Collection) (r : Registry) : c.Sustains r.Stays where
  fills h hr := hr.trans h.stays
  opens _ ho hr := hr.trans ho.stays

end Collection

/-- The nodes are registered in the scope of a document if no expansion is under way, and in one
below such a scope otherwise. -/
def Station.Placed (x : Station) : Prop :=
  ∃ frame sc, x.state.frame? x.frame = some frame ∧
    x.state.registry.scope? frame.scope = some sc ∧ (sc.parent = none ↔ x.around = [])

namespace Collection

variable {c : Collection} {x y : Station} {ref : Reference}

/-- Before nodes are registered, there are only scopes of documents. -/
theorem parent_eq_none_of_addDocuments (c : Collection) (ds : List Document) :
    After True (ds.forM Run.addDocument) c.start fun _ s =>
      ∀ σ sc, s.registry.scope? σ = some sc → sc.parent = none := by
  refine After.forM
    (I := fun (s : Resolution) => ∀ σ sc, s.registry.scope? σ = some sc → sc.parent = none)
    (fun d _ s h => ?_) (by simp [Collection.start, Registry.scope?])
  intro σ sc hσ
  obtain ⟨top, hadded⟩ := s.registry.addDocument_documented d.path
  rcases hadded.cases hσ with ⟨-, rfl⟩ | hσ
  · exact hadded.bare.1
  · exact h σ sc hσ

theorem Starts.placed (hc : c.Described) (h : c.Starts x) : x.Placed := by
  obtain ⟨s₁, p, frame, h₁, hk, hp, haround, -, hscope, hdue, -⟩ := h.exists_due hc
  obtain ⟨frame₁, hframe₁, -, -, hscope₁, -⟩ := (hk.opened p hp).frame
  have hstays : s₁.registry.Stays x.state.registry := by
    refine (c.sustains_stays s₁.registry).starts hc (.trivial fun _ s h => ?_) h
    cases h₁.symm.trans h
    exact .refl _
  obtain ⟨sc₁, hsc₁⟩ : ∃ sc₁, s₁.registry.scope? frame₁.scope = some sc₁ :=
    ⟨_, Array.getElem?_eq_getElem (hk.scope_lt _ frame₁ hframe₁)⟩
  have hparent := (parent_eq_none_of_addDocuments c _).of_ok h₁ _ sc₁ hsc₁
  obtain ⟨sc, hsc, hplace⟩ := hstays.scope _ sc₁ hsc₁
  refine ⟨frame, sc, hdue.opened, ?_, ?_⟩
  · rw [hscope, ← hscope₁]
    exact hsc
  · simp [haround, Scope.parent_eq_of_place hplace, hparent]

/-- The scope stays the same, or an expansion opens one below it. -/
theorem Meets.placed_leads (hc : c.Described) (hx : c.Meets x) (h : x.Placed) (hxy : x.Leads y) :
    y.Placed := by
  have hstays : x.state.registry.Stays y.state.registry :=
    (c.sustains_stays x.state.registry).leads hc hx hxy (.refl _)
  obtain ⟨frame, sc, hframe, hsc, hparent⟩ := h
  obtain ⟨sc', hsc', hplace⟩ := hstays.scope _ sc hsc
  have hparent' : sc'.parent = none ↔ x.around = [] := by
    rw [Scope.parent_eq_of_place hplace, hparent]
  obtain ⟨fr, hdue⟩ := (hx.tracked hc).due
  cases hxy with
  | @behind n around s s' f node rest h =>
    obtain ⟨-, vs, -, hfurnishes⟩ := (Run.registerNode_concludes hc
      (Run.registering_registerWithin n) (Run.registerWithin_concludes hc n) node f s _
      hdue.head).ends.of_ok h
    obtain ⟨frame', hframe', -, -, hscope, -⟩ := hfurnishes.furthers.frame f frame hframe
    exact ⟨frame', sc', hframe', hscope ▸ hsc', hparent'⟩
  | body h =>
    obtain ⟨_, frame', -, -, hscope, -, -, hdue'⟩ := (hdue.head.heading hc).ends.of_ok h
    cases hframe.symm.trans hdue.opened
    exact ⟨frame', sc', hdue'.opened, hscope ▸ hsc', hparent'⟩
  | @block n around s s' f inner key location block tag arguments entry body rest hentry h =>
    obtain ⟨ref, new, r, fr, -, -, hopened, hfills, hfr, hscope⟩ := hx.opening hc rfl hentry h
    obtain ⟨new', hnew', hplace'⟩ := hfills.stays.scope _ new hopened.fresh
    refine ⟨fr, new', hfr, hscope ▸ hnew', ?_⟩
    simp [Scope.parent_eq_of_place hplace', hopened.parent]

theorem Meets.placed (hc : c.Described) (hx : c.Meets x) : x.Placed := by
  obtain ⟨x₀, hstart, hreach⟩ := hx
  induction hreach with
  | refl => exact hstart.placed hc
  | tail hreach hxy ih => exact Meets.placed_leads hc ⟨x₀, hstart, hreach⟩ ih hxy

/-! ## Names that are empty -/

namespace Traced

variable {r : Registry} {σ : ScopeId} {sc : Scope} (h : c.Traced r) (hσ : r.scope? σ = some sc)

include h hσ

theorem documentScope?_iff : r.documentScope? sc.document = some σ ↔ sc.parent = none := by
  refine ⟨fun hd => ?_, fun hp => (h.top σ sc hσ hp).2⟩
  obtain ⟨sc', hsc', hparent, -⟩ := h.document _ σ hd
  cases hσ.symm.trans hsc'
  exact hparent

/-- The scope of an expansion has no name if the tag is empty. -/
theorem name_eq_empty {p : ScopeId} (hp : sc.parent = some p) :
    ∃ y ref, c.Opens y ref σ ∧ (sc.name = "" ↔ ref.tag = some "") := by
  obtain ⟨y, ref, hyields⟩ := h.opened σ sc p hσ hp
  exact ⟨y, ref, hyields.opens, hyields.name_eq ▸ Run.expansionName_eq_empty⟩

end Traced

section

variable (hc : c.Described)
  (hnamed : ∀ y ref, c.Meets y → y.reference? = some ref → ref.tag ≠ some "")

include hc hnamed

theorem Reaches.name_eq_empty_iff {s : Resolution} (h : c.Reaches s) {σ : ScopeId} {sc : Scope}
    (hσ : s.registry.scope? σ = some sc) : sc.name = "" ↔ sc.parent = none := by
  have htraced := hc.traced h
  refine ⟨fun hname => ?_, fun hp => (htraced.top σ sc hσ hp).1⟩
  cases hp : sc.parent with
  | none => rfl
  | some p =>
    obtain ⟨y, ref, hopens, hiff⟩ := htraced.name_eq_empty hσ hp
    exact absurd (hiff.1 hname) (hnamed y ref hopens.meets hopens.reference)

/-- The scope that a node is registered in has no name if no expansion is under way. -/
theorem Meets.name_eq_empty_iff (hx : c.Meets x) {s : Resolution} (hs : x.state.Fills s) :
    ∃ sc, s.registry.scope? (s.scopeOf x.frame) = some sc ∧
      (sc.name = "" ↔ x.around = []) ∧
      (s.registry.documentScope? sc.document = some (s.scopeOf x.frame) ↔ x.around = []) := by
  obtain ⟨frame, sc, hframe, hsc, haround⟩ := hx.placed hc
  obtain ⟨frame', hframe', hscope⟩ := hs.frame _ frame hframe
  obtain ⟨sc', hsc', hplace⟩ := hs.registry.stays.scope _ sc hsc
  have htraced := hc.traced (.registering hx)
  refine ⟨sc', ?_, ?_, ?_⟩
  · rw [scopeOf_eq hframe', hscope]
    exact hsc'
  · rw [Scope.name_eq_of_place hplace, ← haround]
    exact Reaches.name_eq_empty_iff hc hnamed (.registering hx) hsc
  · rw [scopeOf_eq hframe', hscope, hs.registry.documentScope?_eq,
      Scope.document_eq_of_place hplace, htraced.documentScope?_iff hsc, haround]

end

/-- If no block reference has an empty tag, the scopes without names are those of documents, and all
others put their names in front of the relative tags that they hand on. A node is registered in the
scope of a document if no expansion is under way. Its tag is explicit then, and must not hold a
substitution; otherwise the tag is explicit if it holds one. -/
theorem Described.unnamed_iff (hc : c.Described)
    (hnamed : ∀ y ref, c.Meets y → y.reference? = some ref → ref.tag ≠ some "") :
    (∀ s, c.Reaches s → ∀ σ sc, s.registry.scope? σ = some sc →
      (sc.name = "" ↔ s.registry.documentScope? sc.document = some σ) ∧
      (s.registry.documentScope? sc.document ≠ some σ →
        (∀ tag, sc.lift tag = if Path.isAbs tag then tag else Path.join sc.name tag) ∧
        ∀ tags, sc.liftAll tags = (tags.dropLast.map fun tag =>
          if Path.isAbs tag then tag else Path.join sc.name tag) ++ tags.getLast?.toList)) ∧
    ∀ x, c.Meets x → ∀ s, x.state.Fills s →
      (∃ sc, s.registry.scope? (s.scopeOf x.frame) = some sc ∧
        (s.registry.documentScope? sc.document = some (s.scopeOf x.frame) ↔ x.around = [])) ∧
      ∀ location tag,
        Run.evaluateTag x.frame location tag s = Run.substitute x.frame location x.around.isEmpty
          tag none ("", x.around.isEmpty) tag.toList s ∧
        (x.around = [] → Run.evaluateTag x.frame location tag s =
          if '\x7b' ∈ tag.toList then .error (.located location (.tag .documentScope)) s
          else .ok (tag, true) s) ∧
        (x.around ≠ [] → ∀ answer s', Run.evaluateTag x.frame location tag s = .ok answer s' →
          (answer.2 = true ↔ '\x7b' ∈ tag.toList)) := by
  refine ⟨fun s hs σ sc hσ => ?_, fun x hx s hs => ?_⟩
  · have hname := hs.name_eq_empty_iff hc hnamed hσ
    have hdocument := (hc.traced hs).documentScope?_iff hσ
    refine ⟨hname.trans hdocument.symm, fun hne => ?_⟩
    have hlift : sc.lift = fun tag => if Path.isAbs tag then tag else Path.join sc.name tag := by
      have hne : sc.name ≠ "" := fun h => hne (hdocument.2 (hname.1 h))
      funext tag
      simp [Scope.lift, hne]
    exact ⟨congrFun hlift, fun tags => by rw [Scope.liftAll, hlift]⟩
  · obtain ⟨sc, hsc, hname, hdocument⟩ := hx.name_eq_empty_iff hc hnamed hs
    have hempty : decide (sc.name = "") = x.around.isEmpty := by
      rw [Bool.eq_iff_iff, decide_eq_true_iff, hname, List.isEmpty_iff]
    have heq : ∀ location tag, Run.evaluateTag x.frame location tag s =
        Run.substitute x.frame location x.around.isEmpty tag none ("", x.around.isEmpty)
          tag.toList s := fun location tag => by
      rw [Run.evaluateTag_eq x.frame location tag hsc, hempty]
    refine ⟨⟨sc, hsc, hdocument⟩, fun location tag => ⟨heq location tag, fun h => ?_,
      fun h answer s' hanswer => ?_⟩⟩
    · rw [heq, List.isEmpty_iff.2 h]
      split
      next hmem => exact Run.substitute_inDocument x.frame location tag hmem _ s
      next hmem =>
        rw [Run.substitute_of_not_mem x.frame location tag true hmem]
        simp
    · rw [heq, List.isEmpty_eq_false_iff.2 h] at hanswer
      simpa using Run.substitute_explicit x.frame location tag hanswer

/-! ## Tags that are written -/

/-- What is registered at a station is written in a document or in one of its blocks. -/
theorem Meets.expansionTags_subset (hc : c.Described) (hx : c.Meets x) :
    Node.expansionTagsAll x.nodes ⊆ c.expansionTags := by
  obtain ⟨x₀, hstart, hreach⟩ := hx
  induction hreach with
  | refl =>
    obtain ⟨s₁, p, -, -, hk, hp, -, hnodes, -⟩ := hstart.exists_due hc
    rw [hnodes]
    intro tag htag
    exact List.mem_flatMap.2 ⟨_, hk.mem hc hp, List.mem_append_left _ htag⟩
  | @tail y z hreach hyz ih =>
    have hy : c.Meets y := ⟨x₀, hstart, hreach⟩
    cases hyz with
    | behind h => exact fun tag htag => ih (List.mem_append_right _ htag)
    | body h =>
      intro tag htag
      refine ih (List.mem_append_left _ ?_)
      rwa [Node.expansionTags]
    | block hentry h =>
      obtain ⟨frame, hdue⟩ := (hy.tracked hc).due
      obtain ⟨entry, -, -, hblock, hbody, -⟩ := hdue.head.expansion.ends.of_ok h
      obtain ⟨path, d, hd, hb⟩ := hblock
      intro tag htag
      dsimp only at hbody
      subst hbody
      exact List.mem_flatMap.2 ⟨_, hd, List.mem_append_right _ (List.mem_flatMap.2 ⟨_, hb, htag⟩)⟩

/-- Tags that are written without substitutions, and not empty, do not get empty. -/
theorem Meets.tag_ne_empty (hc : c.Described) (hx : c.Meets x) (hr : x.reference? = some ref)
    (htags : ∀ tag, some tag ∈ c.expansionTags → tag ≠ "" ∧ '\x7b' ∉ tag.toList) :
    ref.tag ≠ some "" := by
  obtain ⟨key, block, tag, arguments, rest, hnodes, -, -, htag⟩ := Station.exists_of_reference? hr
  have hmem : tag ∈ c.expansionTags := by
    refine hx.expansionTags_subset hc ?_
    rw [hnodes]
    exact List.mem_append_left _ (by simp [Node.expansionTags])
  cases tag with
  | none =>
    have hnone : EStateM.Result.ok none x.state = .ok ref.tag ref.state := htag
    injection hnone with hnone
    simp [← hnone]
  | some tag =>
    obtain ⟨hne, hbrace⟩ := htags tag hmem
    obtain ⟨sc, hsc⟩ := hx.exists_scope? hc
    have heval : Run.evaluateTag x.frame ref.location tag x.state =
        .ok (tag, decide (sc.name = "")) x.state := by
      rw [Run.evaluateTag_eq x.frame ref.location tag hsc,
        Run.substitute_of_not_mem x.frame ref.location tag _ hbrace]
      simp
    have hread : Run.expansionTag x.frame ref.location (some tag) x.state =
        .ok (some tag) x.state := by
      rw [Run.expansionTag]
      change EStateM.map some _ x.state = _
      rw [EStateM.map, bind_of_ok heval]
      rfl
    injection hread.symm.trans htag with htag
    rw [← htag]
    simpa using hne

/-- Registration comes to a scope that is found by going on from the beginning of a document. -/
theorem exists_met_scope {k : Nat} {w : Station → Option Station} {α : Type}
    {g : Station → Scope → α} {v : α} (hw : ∀ x y, c.Meets x → w x = some y → c.Meets y)
    (h : (((c.start? k).bind w).bind fun x =>
      (x.state.registry.scope? (x.state.scopeOf x.frame)).map (g x)) = some v) :
    ∃ x sc, c.Meets x ∧ x.state.registry.scope? (x.state.scopeOf x.frame) = some sc ∧
      g x sc = v := by
  obtain ⟨x, hx, h⟩ := Option.bind_eq_some_iff.1 h
  obtain ⟨x₀, hx₀, hx⟩ := Option.bind_eq_some_iff.1 hx
  obtain ⟨sc, hsc, hv⟩ := Option.map_eq_some_iff.1 h
  exact ⟨x, sc, hw x₀ x (.of_start? hx₀) hx, hsc, hv⟩

/-- An expansion with a tag, and one without. -/
def taggedExpansion : Collection := single "/a" {
  blocks := [{ tag := "B", nodes := [.heading (some "s") "X" []] }]
  nodes := [.expansion "B" none [], .expansion "B" (some "mine") []] }

/-- The scope of the expansion with the tag is no document, and puts its name in front of tags. -/
theorem unnamed_iff_taggedExpansion : taggedExpansion.Described ∧
    (∀ y ref, taggedExpansion.Meets y → y.reference? = some ref → ref.tag ≠ some "") ∧
    ∃ x sc, taggedExpansion.Meets x ∧ x.around ≠ [] ∧
      x.state.registry.scope? (x.state.scopeOf x.frame) = some sc ∧ sc.name = "mine" ∧
      x.state.registry.documentScope? sc.document ≠ some (x.state.scopeOf x.frame) ∧
      sc.lift "s" = "mine/s" := by
  have hc : taggedExpansion.Described := single_described ..
  have htags : taggedExpansion.expansionTags = [none, some "mine"] := by decide +kernel
  have hnamed : ∀ y ref, taggedExpansion.Meets y → y.reference? = some ref → ref.tag ≠ some "" :=
    fun y ref hy hr => hy.tag_ne_empty hc hr fun tag hmem => by
      rw [htags] at hmem
      obtain rfl : tag = "mine" := by simpa using hmem
      decide +kernel
  obtain ⟨x, sc, hx, hsc, hfacts⟩ := exists_met_scope (c := taggedExpansion) (k := 0)
    (w := fun x => x.behind?.bind Station.inside?)
    (g := fun x sc => (sc.name, x.around.isEmpty)) (v := ("mine", false)) (fun x y hx h => by
      obtain ⟨z, hz, hy⟩ := Option.bind_eq_some_iff.1 h
      exact (hx.leads (Station.leads_of_behind? hz)).leads (Station.leads_of_inside? hy))
    (by decide +kernel)
  obtain ⟨hname, haround⟩ := Prod.mk.inj hfacts
  have haround : x.around ≠ [] := List.isEmpty_eq_false_iff.1 haround
  have hlift := (hc.unnamed_iff hnamed).1 _ (.registering hx) _ sc hsc
  have hdocument : x.state.registry.documentScope? sc.document ≠
      some (x.state.scopeOf x.frame) := fun h => by
    have hempty := hlift.1.2 h
    rw [hname] at hempty
    exact absurd hempty (by decide)
  refine ⟨hc, hnamed, x, sc, hx, haround, hsc, hname, hdocument, ?_⟩
  rw [(hlift.2 hdocument).1, hname]
  decide +kernel

/-- An expansion with an empty tag. -/
def emptyTag : Collection := single "/a" {
  blocks := [{ tag := "B", nodes := [.heading (some "s") "X" []] }]
  nodes := [.expansion "B" (some "") []] }

/-- The scope of an expansion can be without a name. A tag in it is taken for one of a document. -/
theorem not_forall_unnamed_iff :
    (¬ ∀ c : Collection, c.Described → ∀ s, c.Reaches s → ∀ σ sc,
      s.registry.scope? σ = some sc →
      (sc.name = "" ↔ s.registry.documentScope? sc.document = some σ)) ∧
    ¬ ∀ c : Collection, c.Described → ∀ x, c.Meets x → ∀ location tag answer s',
      Run.evaluateTag x.frame location tag x.state = .ok answer s' → '\x7b' ∉ tag.toList →
      (answer.2 = true ↔ x.around = []) := by
  have hc : emptyTag.Described := single_described ..
  obtain ⟨x, sc, hx, hsc, hfacts⟩ := exists_met_scope (c := emptyTag) (k := 0)
    (w := Station.inside?)
    (g := fun x sc => (sc.name, x.around.isEmpty, decide (x.state.registry.documentScope?
      sc.document = some (x.state.scopeOf x.frame)))) (v := ("", false, false))
    (fun x y hx h => hx.leads (Station.leads_of_inside? h)) (by decide +kernel)
  obtain ⟨hname, haround, hdocument⟩ := by simpa only [Prod.mk.injEq] using hfacts
  constructor
  · intro h
    exact of_decide_eq_false hdocument ((h emptyTag hc _ (.registering hx) _ sc hsc).1 hname)
  · intro h
    have hbrace : '\x7b' ∉ "s".toList := by decide
    have heval := Run.evaluateTag_eq x.frame {} "s" hsc
    rw [Run.substitute_of_not_mem x.frame {} "s" _ hbrace, hname] at heval
    exact List.isEmpty_eq_false_iff.1 haround ((h emptyTag hc x hx {} "s" _ _ heval hbrace).1 rfl)

end Collection

end Folio
