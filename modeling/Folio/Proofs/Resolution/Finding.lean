import Folio.Proofs.Resolution.Walk

/-!
# Finding texts changes titles only

The last phase goes through the documents again and again. `Settled` says what it may change:
titles of entries, texts of terms, and the list of what is missing. In particular, slots and labels
are what they were before (`resolveValues_spec`).
-/

namespace Folio

open Resolution

namespace Resolution

/-- Titles and terms are found, and nothing else changes. -/
structure Settled (s s' : Resolution) : Prop where
  same : s' = { s with
    registry := s'.registry, states := s'.states, unresolved := s'.unresolved }
  registry : s'.registry = { s.registry with entries := s'.registry.entries }
  entries_size : s'.registry.entries.size = s.registry.entries.size
  title : ∀ e entry, s.registry.entryAt? e = some entry →
    ∃ title, s'.registry.entryAt? e = some { entry with title }
  fixed_eq : ∀ scope key, s'.fixed? scope key = s.fixed? scope key

namespace Settled

variable {s s' s'' : Resolution}

theorem refl (s : Resolution) : s.Settled s :=
  ⟨rfl, rfl, rfl, fun _ entry h => ⟨entry.title, h⟩, fun _ _ => rfl⟩

theorem trans (h : s.Settled s') (h' : s'.Settled s'') : s.Settled s'' where
  same := by rw [h'.same, h.same]
  registry := by rw [h'.registry, h.registry]
  entries_size := h'.entries_size.trans h.entries_size
  title e entry he := by
    obtain ⟨title, he'⟩ := h.title e entry he
    obtain ⟨title', he''⟩ := h'.title e _ he'
    exact ⟨title', he''⟩
  fixed_eq scope key := (h'.fixed_eq scope key).trans (h.fixed_eq scope key)

theorem keeps (h : s.Settled s') : s.Keeps s' := by
  refine ⟨by rw [h.same], fun f frame hf => ⟨frame, ?_, .refl frame⟩, fun e entry he => ?_,
    fun scope key state hst => (h.fixed_eq scope key).trans hst⟩
  · rw [h.same]
    exact hf
  · obtain ⟨title, he'⟩ := h.title e entry he
    exact ⟨_, he', rfl, rfl⟩

/-- What is missing changes. -/
theorem of_unresolved (s : Resolution) (unresolved : List Unresolved) :
    s.Settled { s with unresolved } :=
  ⟨rfl, rfl, rfl, fun _ entry h => ⟨entry.title, h⟩, fun _ _ => rfl⟩

theorem of_title (s : Resolution) (e : EntryId) (title : String) :
    s.Settled { s with
      registry := s.registry.modifyEntry e fun e => { e with title := some title } } := by
  refine ⟨rfl, rfl, by simp [Registry.modifyEntry], fun i entry hi => ?_, fun _ _ => rfl⟩
  change ∃ title, Registry.entryAt? (s.registry.modifyEntry _ _) i = _
  rw [Registry.entryAt?_modifyEntry, hi]
  split
  · exact ⟨some title, rfl⟩
  · exact ⟨entry.title, rfl⟩

/-- The text of a term that is known is set. -/
theorem of_term {f : FrameId} {key : NodeKey} {old : Option String}
    (h : s.state? f key = some (.term old)) (text : Option String) :
    s.Settled (s.setState f key (.term text)) := by
  refine ⟨rfl, rfl, rfl, fun _ entry h => ⟨entry.title, h⟩, fun scope k => ?_⟩
  rw [fixed?_setState]
  split
  next heq =>
    have hst : s.stateIn? (s.scopeOf f) key = some (.term old) := h
    rw [heq.1, heq.2, fixed?, hst]
    rfl
  · rfl

end Settled

end Resolution

namespace Run

variable {s : Resolution}

theorem checkTextWithin_spec (fuel : Nat) (f : FrameId) (body : InlineText) :
    After True (checkTextWithin fuel f body) s fun _ s' => s' = s := by
  induction fuel generalizing f body with
  | zero => exact trivial
  | succ fuel ih =>
    unfold checkTextWithin
    refine After.forM (I := fun s' => s' = s) (fun part _ s₁ h₁ => ?_) rfl
    subst h₁
    cases part with
    | value key name =>
      dsimp only
      rw [After.bind_iff]
      refine (valueState_spec f body.location key).mono ?_
      rintro ⟨inner, inside⟩ s₂ rfl
      exact ih inner inside
    | _ => rfl

theorem checkText_spec (f : FrameId) (body : InlineText) :
    After True (checkText f body) s fun _ s' => s' = s := by
  unfold checkText
  rw [After.bind_iff, After.get_iff]
  exact checkTextWithin_spec _ f body

theorem findTitle_spec {f : FrameId} {h : Heading} {entry : EntryId} {inner : FrameId}
    (hs : s.Holds f h.key (.labeled entry inner)) :
    After True (findTitle f h) s fun inner' s' => inner' = inner ∧ s.Settled s' := by
  unfold findTitle labeledState
  rw [After.bind_iff, After.bind_iff, After.get_iff, hs.state?]
  dsimp only
  rw [After.pure_iff]
  dsimp only
  rw [After.bind_iff]
  refine (checkText_spec f h.title).mono ?_
  rintro _ s₁ rfl
  rw [After.bind_iff, After.get_iff]
  split
  · split
    · exact trivial
    · exact ⟨rfl, .of_title ..⟩
  · exact ⟨rfl, .of_unresolved ..⟩

theorem findTerm_spec (f : FrameId) (key : NodeKey) (location : Location) (body : InlineText) :
    After True (findTerm f key location body) s fun _ s' => s.Settled s' := by
  unfold findTerm
  rw [After.bind_iff]
  refine (checkText_spec f body).mono ?_
  rintro _ s₁ rfl
  rw [After.bind_iff, After.get_iff]
  split
  · split
    next hst => exact .of_term hst _
    · exact trivial
  · exact .of_unresolved ..

theorem findNodes_spec {f : FrameId} {ns : List Node} {vs : List Visit} (hw : Walk s f ns vs) :
    ∀ fuel s', s.Keeps s' →
      After True (findNodes (findWithin fuel) f ns) s' fun _ s'' => s'.Settled s'' := by
  induction hw with
  | nil f => exact fun _ s' _ => .refl s'
  | text f content _ ih =>
    intro fuel s' hs
    unfold findNodes findNode
    rw [After.bind_iff]
    refine (checkText_spec f content).mono ?_
    rintro _ s₁ rfl
    exact ih fuel s₁ hs
  | term f key location tag content _ ih =>
    intro fuel s' hs
    unfold findNodes findNode
    rw [After.bind_iff]
    refine (findTerm_spec f key location content).mono fun _ s₁ h₁ => ?_
    exact (ih fuel s₁ (hs.trans h₁.keeps)).mono fun _ _ h => h₁.trans h
  | labeled f h hst _ _ _ _ ihb ihr =>
    intro fuel s' hs
    unfold findNodes findNode
    rw [After.bind_iff, After.bind_iff]
    refine (findTitle_spec (hst.keeps hs)).mono ?_
    rintro inner s₁ ⟨rfl, h₁⟩
    refine (ihb fuel s₁ (hs.trans h₁.keeps)).mono fun _ s₂ h₂ => ?_
    have h₂ := h₁.trans h₂
    exact (ihr fuel s₂ (hs.trans h₂.keeps)).mono fun _ _ h => h₂.trans h
  | embedding f key location written _ _ _ ih =>
    intro fuel s' hs
    unfold findNodes findNode
    rw [After.bind_iff, After.pure_iff]
    exact ih fuel s' hs
  | expansion f key location block tag arguments hst _ _ _ ihb ihr =>
    intro fuel s' hs
    unfold findNodes findNode expansionState
    rw [After.bind_iff, After.bind_iff, After.bind_iff, After.get_iff, (hst.keeps hs).state?]
    dsimp only
    rw [After.pure_iff]
    dsimp only
    cases fuel with
    | zero =>
      unfold findWithin
      rw [After.bind_iff, After.get_iff]
      exact trivial
    | succ fuel =>
      unfold findWithin
      refine (ihb fuel s' hs).mono fun _ s₁ h₁ => ?_
      exact (ihr (fuel + 1) s₁ (hs.trans h₁.keeps)).mono fun _ _ h => h₁.trans h

theorem findWithin_spec {f : FrameId} {ns : List Node} {vs : List Visit} (hw : Walk s f ns vs)
    (fuel : Nat) : After True (findWithin fuel f ns) s fun _ s' => s.Settled s' := by
  cases fuel with
  | zero =>
    unfold findWithin
    rw [After.bind_iff, After.get_iff]
    exact trivial
  | succ fuel =>
    unfold findWithin
    exact findNodes_spec hw fuel s (.refl s)

/-- A pass goes along the walks through the documents. -/
theorem pass_spec (hw : ∀ p ∈ s.documents, ∃ vs, Walk s p.2.frame p.2.document.nodes vs) :
    After True pass s fun _ s' => s.Settled s' := by
  unfold pass
  rw [After.bind_iff, After.modify_iff, After.bind_iff, After.get_iff, After.bind_iff]
  refine (After.forM (I := fun s' => s.Settled s') (fun p hp s' hs => ?_)
    (.of_unresolved s [])).mono fun _ s' hs => ?_
  · obtain ⟨path, info⟩ := p
    obtain ⟨vs, hw⟩ := hw _ hp
    dsimp only
    split
    · rw [After.bind_iff, After.get_iff]
      exact (findWithin_spec (hw.keeps hs.keeps) _).mono fun _ _ h => hs.trans h
    · exact hs
  · rw [After.bind_iff, After.get_iff]
    exact hs

theorem passesAfter_spec (hw : ∀ p ∈ s.documents, ∃ vs, Walk s p.2.frame p.2.document.nodes vs)
    (fuel last : Nat) : After True (passesAfter fuel last) s fun _ s' => s.Settled s' := by
  induction fuel generalizing last s with
  | zero =>
    unfold passesAfter
    rw [After.bind_iff, After.get_iff]
    exact trivial
  | succ fuel ih =>
    unfold passesAfter
    rw [After.bind_iff]
    refine (pass_spec hw).mono fun count s₁ h₁ => ?_
    dsimp only
    split
    · exact h₁
    · split
      · rw [After.bind_iff, After.get_iff]
        exact trivial
      · refine (ih (fun p hp => ?_) count).mono fun _ _ h => h₁.trans h
        have hdocuments : s₁.documents = s.documents := by rw [h₁.same]
        exact (hw p (hdocuments ▸ hp)).imp fun vs hw => hw.keeps h₁.keeps

theorem resolveValues_spec
    (hw : ∀ p ∈ s.documents, ∃ vs, Walk s p.2.frame p.2.document.nodes vs) :
    After True resolveValues s fun _ s' => s.Settled s' := by
  unfold resolveValues
  rw [After.bind_iff]
  refine (pass_spec hw).mono fun count s₁ h₁ => ?_
  split
  · exact h₁
  · refine (passesAfter_spec (fun p hp => ?_) count count).mono fun _ _ h => h₁.trans h
    have hdocuments : s₁.documents = s.documents := by rw [h₁.same]
    exact (hw p (hdocuments ▸ hp)).imp fun vs hw => hw.keeps h₁.keeps

end Run

end Folio
