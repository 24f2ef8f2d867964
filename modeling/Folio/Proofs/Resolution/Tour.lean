import Folio.Proofs.Resolution.Claiming

/-!
# Phases that go along walks

Claiming slots and finding texts go through the nodes of a document in the same way and differ in
what they do at each of them. `Tour` says how such a phase goes on, and `Tour.of_visits` that it
comes to making the visits of the walk in their order. The frame of an expansion comes behind the
one that it lies in, so the number of frames is fuel enough.
-/

namespace Folio

open Resolution

/-- A phase makes a visit at each node and goes on to the nodes inside. At a labeled node it is
told the frame for those. -/
structure Tour (visit : Visit → Run Unit) (heading : FrameId → Heading → Run FrameId)
    (nodes : (FrameId → List Node → Run Unit) → FrameId → List Node → Run Unit)
    (within : Nat → FrameId → List Node → Run Unit) : Prop where
  nil : ∀ enter f, nodes enter f [] = pure ()
  text : ∀ enter f content rest, nodes enter f (.text content :: rest) = do
    visit (.text f content)
    nodes enter f rest
  labeled : ∀ enter f h body rest, nodes enter f (.labeled h body :: rest) = do
    nodes enter (← heading f h) body
    nodes enter f rest
  embedding : ∀ enter f key location written link rest,
    nodes enter f (.embedding key location written :: rest) = do
      visit (.embedding f key location link)
      nodes enter f rest
  expansion : ∀ enter f key location block tag arguments rest,
    nodes enter f (.expansion key location block tag arguments :: rest) = do
      let (inner, body) ← Run.expansionState f key location
      enter inner body
      nodes enter f rest
  term : ∀ enter f key location tag content rest,
    nodes enter f (.term key location tag content :: rest) = do
      visit (.term f key location content)
      nodes enter f rest
  zero : ∀ f ns, within 0 f ns = do Run.fail (.document ((← get).documentOf f)) .tooDeep
  succ : ∀ fuel, within (fuel + 1) = nodes (within fuel)
  visit_heading : ∀ f h entry inner, visit (.heading f h entry inner) = do
    let _ ← heading f h
  visit_expansion : ∀ f key location inner, visit (.expansion f key location inner) = do
    let _ ← Run.expansionState f key location
  keeps : ∀ v s, s.Ready v → After True (visit v) s fun _ s' => s.Keeps s'
  heading_spec : ∀ f h entry inner s, s.Holds f h.key (.labeled entry inner) →
    After True (heading f h) s fun inner' _ => inner' = inner

namespace Run

variable {R : ResolveError → Prop} {s : Resolution} {f : FrameId}

theorem labeledState_iff {h : Heading} {entry : EntryId} {inner : FrameId}
    (hs : s.Holds f h.key (.labeled entry inner)) {Q : EntryId × FrameId → Resolution → Prop} :
    Ends R (labeledState f h) s Q ↔ Q (entry, inner) s := by
  unfold labeledState
  rw [Ends.bind_iff, Ends.get_iff, hs.state?]
  exact Iff.rfl

theorem expansionState_iff {key : NodeKey} {location : Location} {inner : FrameId}
    {body : List Node} (hs : s.Holds f key (.expansion inner body))
    {Q : FrameId × List Node → Resolution → Prop} :
    Ends R (expansionState f key location) s Q ↔ Q (inner, body) s := by
  unfold expansionState
  rw [Ends.bind_iff, Ends.get_iff, hs.state?]
  exact Iff.rfl

end Run

namespace Tour

variable {visit : Visit → Run Unit} {heading : FrameId → Heading → Run FrameId}
  {nodes : (FrameId → List Node → Run Unit) → FrameId → List Node → Run Unit}
  {within : Nat → FrameId → List Node → Run Unit} {R : ResolveError → Prop} {s : Resolution}

/-- An inner frame comes later, and there is one. -/
theorem index_lt_of_inside (ho : s.Ordered) {f inner : FrameId} {sort : FrameKind → Prop}
    (h : s.Inside f inner sort) : f.index < inner.index ∧ inner.index < s.frames.size := by
  obtain ⟨outer, frame, -, hi, hp, -⟩ := h
  exact ⟨ho inner frame f hi hp, index_lt_of_frame? hi⟩

/-- The visits of a walk are made in their order. Errors of the visits and running out of fuel are
worth `R`, if there is not enough of it. -/
theorem nodes_of_visits (ht : Tour visit heading nodes within) {f : FrameId} {ns : List Node}
    {vs : List Visit} (hw : Walk s f ns vs) : ∀ fuel s' (Q : Unit → Resolution → Prop),
      (∀ e, R e) ∨ s.Ordered ∧ s.frames.size ≤ fuel + f.index → s.Keeps s' →
      Ends R (vs.forM visit) s' Q →
      Ends R (nodes (within fuel) f ns) s' fun a s'' => s'.Keeps s'' ∧ Q a s'' := by
  induction hw with
  | nil f =>
    intro fuel s' Q _ _ h
    rw [ht.nil]
    exact ⟨.refl s', h⟩
  | text f content _ ih =>
    intro fuel s' Q hR hs h
    rw [Ends.forM_cons] at h
    rw [ht.text, Ends.bind_iff]
    refine (h.inspect (ht.keeps _ s' trivial)).mono fun _ s₁ ⟨hs₁, h⟩ => ?_
    exact (ih fuel s₁ Q hR (hs.trans hs₁) h).mono fun _ _ h => ⟨hs₁.trans h.1, h.2⟩
  | term f key location tag content _ ih =>
    intro fuel s' Q hR hs h
    rw [Ends.forM_cons] at h
    rw [ht.term, Ends.bind_iff]
    refine (h.inspect (ht.keeps _ s' trivial)).mono fun _ s₁ ⟨hs₁, h⟩ => ?_
    exact (ih fuel s₁ Q hR (hs.trans hs₁) h).mono fun _ _ h => ⟨hs₁.trans h.1, h.2⟩
  | embedding f key location written hst _ _ ih =>
    intro fuel s' Q hR hs h
    rw [Ends.forM_cons] at h
    rw [ht.embedding, Ends.bind_iff]
    refine (h.inspect (ht.keeps _ s' (hst.keeps hs))).mono fun _ s₁ ⟨hs₁, h⟩ => ?_
    exact (ih fuel s₁ Q hR (hs.trans hs₁) h).mono fun _ _ h => ⟨hs₁.trans h.1, h.2⟩
  | labeled f h hst hi he _ _ ihb ihr =>
    intro fuel s' Q hR hs hv
    rw [Ends.forM_cons] at hv
    have hready : s'.Ready (.heading f h _ _) := Ready.keeps (s := s) ⟨hst, hi, he⟩ hs
    replace hv := hv.inspect (ht.keeps _ s' hready)
    rw [ht.visit_heading, Ends.bind_iff] at hv
    rw [ht.labeled, Ends.bind_iff]
    refine (hv.inspect (ht.heading_spec f h _ _ s' (hst.keeps hs))).mono ?_
    rintro inner s₁ ⟨rfl, hs₁, hv⟩
    rw [Ends.forM_append] at hv
    rw [Ends.bind_iff]
    have hinner := hR.imp_right fun ⟨ho, hle⟩ =>
      And.intro ho (show s.frames.size ≤ fuel + inner.index by
        have := (index_lt_of_inside ho hi).1
        omega)
    refine (ihb fuel s₁ _ hinner (hs.trans hs₁) hv).mono fun _ s₂ ⟨hs₂, hv⟩ => ?_
    have hs₂ := hs₁.trans hs₂
    exact (ihr fuel s₂ Q hR (hs.trans hs₂) hv).mono fun _ _ h => ⟨hs₂.trans h.1, h.2⟩
  | @expansion f key location block tag arguments inner body rest vs ws hst hi _ _ ihb ihr =>
    intro fuel s' Q hR hs h
    rw [Ends.forM_cons, ht.visit_expansion, Ends.bind_iff,
      Run.expansionState_iff (hst.keeps hs), Ends.pure_iff, Ends.forM_append] at h
    rw [ht.expansion, Ends.bind_iff, Run.expansionState_iff (hst.keeps hs)]
    dsimp only
    rw [Ends.bind_iff]
    cases fuel with
    | zero =>
      rw [ht.zero, Ends.bind_iff, Ends.get_iff]
      refine hR.elim (fun hR => hR _) fun ⟨ho, hle⟩ => ?_
      obtain ⟨hlt, hsize⟩ := index_lt_of_inside ho hi
      omega
    | succ fuel =>
      rw [ht.succ]
      have hinner := hR.imp_right fun ⟨ho, hle⟩ =>
        And.intro ho (show s.frames.size ≤ fuel + inner.index by
          have := (index_lt_of_inside ho hi).1
          omega)
      refine (ihb fuel s' _ hinner hs h).mono fun _ s₁ ⟨hs₁, h⟩ => ?_
      rw [← ht.succ]
      exact (ihr (fuel + 1) s₁ Q hR (hs.trans hs₁) h).mono fun _ _ h => ⟨hs₁.trans h.1, h.2⟩

theorem of_visits (ht : Tour visit heading nodes within) {f : FrameId} {ns : List Node}
    {vs : List Visit} (hw : Walk s f ns vs) (hR : (∀ e, R e) ∨ s.Ordered) {fuel : Nat}
    (hfuel : s.frames.size ≤ fuel) {Q : Unit → Resolution → Prop} (h : Ends R (vs.forM visit) s Q) :
    Ends R (within (fuel + 1) f ns) s fun a s' => s.Keeps s' ∧ Q a s' := by
  rw [ht.succ]
  exact ht.nodes_of_visits hw fuel s Q (hR.imp_right fun ho => ⟨ho, by omega⟩) (.refl s) h

end Tour

namespace Run

/-- Claiming slots makes visits. -/
theorem label_tour : Tour labelVisit labelHeading labelNodes labelWithin where
  nil _ _ := by rw [labelNodes]
  text _ _ _ _ := by rw [labelNodes, labelNode, labelVisit]
  labeled _ _ _ _ _ := by rw [labelNodes, labelNode, bind_assoc]
  embedding _ _ _ _ _ _ _ := by rw [labelNodes, labelNode, labelVisit]
  expansion _ _ _ _ _ _ _ _ := by rw [labelNodes, labelNode, bind_assoc]
  term _ _ _ _ _ _ _ := by rw [labelNodes, labelNode, labelVisit]
  zero _ _ := by rw [labelWithin]
  succ _ := by funext f ns; rw [labelWithin]
  visit_heading _ _ _ _ := rfl
  visit_expansion _ _ _ _ := rfl
  keeps _ _ h := (labelVisit_spec h).mono fun _ _ h => h.keeps
  heading_spec _ _ _ _ _ h := (labelHeading_spec h).mono fun _ _ h => h.1

end Run

end Folio
