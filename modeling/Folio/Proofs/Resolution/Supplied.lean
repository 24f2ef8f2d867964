import Folio.Proofs.Resolution.Legible

/-!
# What later visits find

`Resolution.Supplied` is what the phases after registration rely on at the visits of the walks:
texts are legible, terms have a place of their own for their texts, and no title and no term has a
text yet. Putting documents in order changes nothing of that (`Collection.Described.arrange_ends`).
-/

namespace Folio

open Resolution

/-- A place for a text that is found: that of a title, or that of a term. -/
inductive TextPlace where
  | title (entry : EntryId)
  | term (scope : ScopeId) (key : NodeKey)
  deriving DecidableEq

namespace Resolution

/-- The text of a visit is legible, and a term has a state. -/
def Sighted (s : Resolution) : Visit → Prop
  | .text f content => s.Legible (s.frames.size + 1) f content
  | .heading f h _ _ => s.Legible (s.frames.size + 1) f h.title
  | .term f key _ content => s.Legible (s.frames.size + 1) f content ∧
    ∃ text, s.state? f key = some (.term text)
  | .embedding .. | .expansion .. => True

/-- The range that a visit counts in was asked for. -/
def Asked (s : Resolution) : Visit → Prop
  | .heading f h _ _ => s.Requested (s.documentOf f) (h.typeIn s.options)
  | .embedding f _ _ _ => s.Requested (s.documentOf f) s.options.sectionType
  | _ => True

/-- Where the text that a visit finds is kept. -/
def place? (s : Resolution) : Visit → Option TextPlace
  | .heading _ _ entry _ => some (.title entry)
  | .term f key _ _ => some (.term (s.scopeOf f) key)
  | _ => none

/-- The text that is kept in a place. -/
def textIn? (s : Resolution) : TextPlace → Option String
  | .title entry => (s.registry.entryAt? entry).bind Entry.title
  | .term scope key =>
    match s.stateIn? scope key with
    | some (.term text) => text
    | _ => none

/-- The text that was found at a visit. -/
def textAt? (s : Resolution) (v : Visit) : Option String := (s.place? v).bind s.textIn?

/-- All visits find what they need, and no text is found yet. -/
structure Supplied (vs : List Visit) (s : Resolution) : Prop where
  ordered : s.Ordered
  sighted : ∀ v ∈ vs, s.Sighted v
  asked : ∀ v ∈ vs, s.Asked v
  untitled : ∀ e entry, s.registry.entryAt? e = some entry → entry.title = none
  textless : ∀ v ∈ vs, s.textAt? v = none
  nodup : (vs.filterMap s.site?).Nodup

/-- States are recalled in the frames there were. -/
theorem Sighted.recalls {s s' : Resolution} (h : Recalls NodeState.core s s')
    (hsize : s'.frames.size = s.frames.size) {v : Visit} (hv : s.Sighted v) : s'.Sighted v := by
  cases v with
  | text f content =>
    rw [Sighted, hsize]
    exact Legible.recalls h hv
  | heading f heading entry inner =>
    rw [Sighted, hsize]
    exact Legible.recalls h hv
  | term f key location content =>
    obtain ⟨ht, text, hst⟩ := hv
    obtain ⟨st', hst', heq⟩ := h f key _ hst
    cases st' <;> simp [NodeState.core, NodeState.untargeted, NodeState.untold] at heq
    rw [Sighted, hsize]
    exact ⟨ht.recalls h, _, hst'⟩
  | embedding | expansion => trivial

theorem Equipped.supplied {c : Collection} (hc : c.Described) {vs : List Visit} {s : Resolution}
    (h : s.Equipped c vs) : s.Supplied vs := by
  refine ⟨h.proper.ordered, fun v hv => ?_, fun v hv => ?_, h.proper.registry.untitled,
    fun v hv => ?_, h.nodup⟩
  · cases v with
    | text f content =>
      obtain ⟨frame, hf, ht, hh⟩ := h.stated _ hv
      exact h.legible_size hc hf ht hh
    | heading f heading entry inner =>
      obtain ⟨frame, hf, ht, hh, -⟩ := h.stated _ hv
      exact h.legible_size hc hf ht hh
    | term f key location content =>
      obtain ⟨frame, hf, ht, hh, -, hst⟩ := h.stated _ hv
      refine ⟨h.legible_size hc hf ht hh, none, ?_⟩
      rw [state?, scopeOf_eq hf, hst]
    | embedding | expansion => trivial
  · cases v with
    | heading f heading entry inner =>
      obtain ⟨frame, hf, -, -, hr⟩ := h.stated _ hv
      rw [Asked, documentOf_eq hf]
      exact hr
    | embedding f key location link =>
      obtain ⟨frame, hf, hr⟩ := h.stated _ hv
      rw [Asked, documentOf_eq hf]
      exact hr
    | text | expansion | term => trivial
  · cases v with
    | heading f heading entry inner =>
      change (s.registry.entryAt? entry).bind Entry.title = none
      cases he : s.registry.entryAt? entry with
      | none => rfl
      | some e => exact h.proper.registry.untitled entry e he
    | term f key location content =>
      obtain ⟨frame, hf, -, -, -, hst⟩ := h.stated _ hv
      change s.textIn? (.term (s.scopeOf f) key) = none
      rw [textIn?, scopeOf_eq hf, hst]
    | text | embedding | expansion => rfl

/-- Putting documents in order changes what is known of their embeddings. -/
theorem Supplied.arrange {vs : List Visit} {s₁ s₂ s : Resolution} (h : s₁.Supplied vs)
    (ho : s₁.Reordered s₂) (hr : Routed s₂ s) : s.Supplied vs := by
  have hrequested : ∀ d typ, s₁.Requested d typ → s.Requested d typ := by
    rintro d typ ⟨info, hd, hmem⟩
    obtain ⟨requests, embeddedBy, hd₂, -⟩ := ho.info d info hd
    obtain ⟨root, hd'⟩ := hr.info d _ hd₂
    exact ⟨_, hd', hmem⟩
  have hsame : s = { s₁ with documents := s.documents, roots := s.roots } := by
    rw [hr.same, ho.same]
  have hasked : ∀ v ∈ vs, s.Asked v := fun v hv => by
    have hold := h.asked v hv
    have hoptions : s.options = s₁.options := by rw [hsame]
    have hdocument : s.documentOf = s₁.documentOf := by rw [hsame]; rfl
    cases v with
    | heading => exact hrequested _ _ (by rwa [hoptions, hdocument])
    | embedding => exact hrequested _ _ (by rwa [hoptions, hdocument])
    | text | expansion | term => trivial
  refine ⟨?_, fun v hv => (h.sighted v hv).recalls (.of_states ?_ ?_) ?_, hasked, ?_, ?_,
    ?_⟩
  all_goals rw [hsame]
  · exact h.ordered
  · exact fun _ => rfl
  · exact h.untitled
  · exact h.textless
  · exact h.nodup

end Resolution

namespace Collection

variable {c : Collection}

/-- The phases before slots are claimed. -/
def arrange (c : Collection) : Run Unit := do
  Run.registerAll (c.documents.map Prod.snd)
  Run.resolveStructure
  Run.orderDocuments

/-- The phases before claiming do not fail internally, and later visits find what they need. -/
theorem Described.arrange_ends (hc : c.Described) :
    Ends ResolveError.External c.arrange c.start fun _ s =>
      ∃ W, Prepared c W s ∧ s.Supplied (W.flatMap Prod.snd) := by
  unfold arrange
  rw [Ends.bind_iff]
  refine hc.registerAll_ends.mono fun _ s₁ ⟨W, h₁, he⟩ => ?_
  exact (h₁.arrange_ends hc).mono fun _ s ⟨hp, s₂, ho, hr⟩ =>
    ⟨W, hp, (he.supplied hc).arrange ho hr⟩

end Collection

end Folio
