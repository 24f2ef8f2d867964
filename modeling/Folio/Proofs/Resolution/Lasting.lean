import Folio.Proofs.Resolution.Untold

/-!
# What registration has left, in the end

The phases after registration put documents in order, claim slots, bind labels and find texts. The
scopes, the values and the frames are what they were, and states are found again but for the targets
of references and the texts of terms (`Resolution.Lasts`). So the walks that registration made
through the documents are still there when a resolution succeeds
(`Collection.Described.resolve_concluded`).
-/

namespace Folio

open Resolution

namespace Resolution

/-- Scopes, values and frames are what they were, and states are found again. -/
structure Lasts (s s' : Resolution) : Prop extends s.Keeps s' where
  scopes : s'.registry.scopes = s.registry.scopes
  values : s'.registry.values = s.registry.values
  size : s'.frames.size = s.frames.size
  recalls : Recalls NodeState.core s s'

variable {s s' s'' : Resolution}

namespace Lasts

theorem trans (h : s.Lasts s') (h' : s'.Lasts s'') : s.Lasts s'' where
  toKeeps := h.toKeeps.trans h'.toKeeps
  scopes := h'.scopes.trans h.scopes
  values := h'.values.trans h.values
  size := h'.size.trans h.size
  recalls := h.recalls.trans h'.recalls

theorem scope? (h : s.Lasts s') (σ : ScopeId) : s'.registry.scope? σ = s.registry.scope? σ := by
  rw [Registry.scope?, Registry.scope?, h.scopes]

theorem scopeOf (h : s.Lasts s') (f : FrameId) : s'.scopeOf f = s.scopeOf f :=
  h.toKeeps.scopeOf h.size f

end Lasts

theorem Reordered.lasts (h : s.Reordered s') : s.Lasts s' := by
  refine ⟨h.keeps, ?_, ?_, ?_, ?_⟩ <;> rw [h.same]
  exact .of_states rfl fun _ => rfl

theorem Steady.lasts (h : s.Steady s') : s.Lasts s' where
  toKeeps := h.progress.toKeeps
  scopes := by rw [h.progress.registry]
  values := by rw [h.progress.registry]
  size := h.progress.frames_size
  recalls := h.recalls.mono fun _ _ => NodeState.core_eq_of_untargeted

theorem Bound.lasts {P : SlotId → Prop} (h : s.Bound s' P) : s.Lasts s' := by
  refine ⟨h.keeps, ?_, ?_, ?_, ?_⟩ <;> rw [h.same]
  exact .of_states rfl fun _ => rfl

theorem Adds.lasts (h : s.Adds s') : s.Lasts s' where
  toKeeps := h.settled.keeps
  scopes := by rw [h.settled.registry]
  values := by rw [h.settled.registry]
  size := h.settled.frames_size
  recalls := h.recalls.mono fun _ _ => NodeState.core_eq_of_untold

end Resolution

theorem Routed.lasts {s s' : Resolution} (h : Routed s s') : s.Lasts s' := by
  refine ⟨h.keeps, ?_, ?_, ?_, ?_⟩ <;> rw [h.same]
  exact .of_states rfl fun _ => rfl

namespace Resolution

/-- What registration has left, with the walks `W` through the documents, lasts to the end. -/
structure Concluded (c : Collection) (W : List (String × List Visit)) (s₁ s : Resolution) :
    Prop where
  registered : Run.registerAll (c.documents.map Prod.snd) c.start = .ok () s₁
  catalog : Catalog c W s₁
  equipped : s₁.Equipped c (W.flatMap Prod.snd)
  lasts : s₁.Lasts s
  keys : s.documents.keys = c.documents.keys
  document : ∀ path info, s.info? path = some info → (path, info.document) ∈ c.documents
  walk : ∀ path info, s.info? path = some info → ∃ vs, (path, vs) ∈ W ∧
    Walk s info.frame info.document.nodes vs

end Resolution

namespace Collection

variable {c : Collection}

theorem Described.phases_concluded (hc : c.Described) :
    After True c.phases c.start fun _ s => ∃ W s₁, Concluded c W s₁ s := by
  unfold phases
  rw [After.bind_iff]
  refine After.trivial fun _ s₁ hr => ?_
  obtain ⟨W, h₁, he⟩ := hc.registerAll_ends.of_ok hr
  have harrange := (h₁.arrange_ends hc).after
  rw [After.bind_iff] at harrange ⊢
  refine harrange.mono fun _ s₂ h₂ => ?_
  rw [After.bind_iff]
  refine h₂.mono fun _ s₃ ⟨hp, s₂', ho, hrouted⟩ => ?_
  have hsupplied : s₃.Supplied (W.flatMap Prod.snd) := (he.supplied hc).arrange ho hrouted
  rw [After.bind_iff]
  refine (Run.resolveRanges_ends hp hsupplied).after.mono fun _ s₄ ⟨s₄', P, hsteady, hbound⟩ => ?_
  have huntold : s₄.Untold W := .of_steady hp hsupplied hsteady hbound
  obtain ⟨vs, hsought, -⟩ := huntold.sought
  refine After.trivial fun _ s hs => ?_
  obtain ⟨hadds, -⟩ := (Run.passes_resolveValues s₄).complete hsought hs
  have hlasts : s₁.Lasts s :=
    (((ho.lasts.trans hrouted.lasts).trans hsteady.lasts).trans hbound.lasts).trans
      hadds.lasts
  have hdocuments : s.documents = s₄'.documents := by
    rw [hadds.settled.documents, hbound.same]
  refine ⟨W, s₁, hr, h₁, he, hlasts, ?_, fun path info hinfo => ?_, fun path info hinfo => ?_⟩
  · rw [hdocuments, hsteady.progress.keys, hp.keys]
  · rw [info?, hdocuments] at hinfo
    obtain ⟨info₃, hinfo₃, heq⟩ := hsteady.progress.info_of hinfo
    rw [heq]
    exact (hp.info path info₃ hinfo₃).1
  · rw [info?, hadds.settled.documents] at hinfo
    obtain ⟨ws, hw⟩ := huntold.exists_walk hinfo
    obtain ⟨info', hinfo', hwalk⟩ := huntold.walk path ws hw
    cases hinfo.symm.trans hinfo'
    exact ⟨ws, hw, hwalk.keeps hadds.settled.keeps⟩

/-- A resolution that succeeds ends with what registration has left. -/
theorem Described.resolve_concluded (hc : c.Described) {s : Resolution}
    (hs : c.resolve = .ok () s) : ∃ W s₁, Concluded c W s₁ s :=
  hc.phases_concluded.of_ok hs

end Collection

end Folio
