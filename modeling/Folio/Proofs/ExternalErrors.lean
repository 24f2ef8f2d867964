import Folio.Proofs.FoundTexts

/-!
# Documents never cause internal errors

Some errors are about the phases and not about documents: that a node has no state, that no range is
in use for a label type, that an id is taken, that a range is used in a way it does not allow. The
phases agree on what they leave to each other, so none of these errors comes up, neither while
documents are resolved nor when they are written out afterwards
(`Collection.Described.errors_external`).
-/

namespace Folio

open Resolution

/-- If a result is an error, documents can be blamed for it. -/
def FailsExternally {α : Type} (x : Except ResolveError α) : Prop :=
  ∀ e, x = .error e → e.External

namespace FailsExternally

variable {α β : Type}

theorem of_ok (a : α) : FailsExternally (.ok a) := fun _ h => by cases h

theorem of_error {e : ResolveError} (h : e.External) : FailsExternally (.error e : Except _ α) :=
  fun _ he => by
    cases he
    exact h

theorem bind {x : Except ResolveError α} {f : α → Except ResolveError β} (hx : FailsExternally x)
    (hf : ∀ a, x = .ok a → FailsExternally (f a)) : FailsExternally (x >>= f) := by
  cases hres : x with
  | ok a => exact hf a hres
  | error e => exact of_error (hx e hres)

end FailsExternally

namespace Resolution

variable {s : Resolution} {f : FrameId}

theorem renderText_external {t : InlineText} (h : s.Legible (s.frames.size + 1) f t) :
    FailsExternally (s.renderText f t) := fun _ he => h.external he

theorem renderHeading_external {t : InlineText} (h : s.Legible (s.frames.size + 1) f t)
    (entry : EntryId) : FailsExternally (s.renderHeading f entry t) :=
  .bind (renderText_external h) fun _ _ => .of_ok _

theorem renderEmbedding_external (s : Resolution) (f : FrameId) (location : Location)
    (link : Link) : FailsExternally (s.renderEmbedding f location link) := by
  unfold renderEmbedding
  split
  · exact .of_ok _
  · exact .of_error id

/-- Nodes are written out along their walk. The number of frames bounds how deep expansions lie. -/
theorem renderNodes_external (ho : s.Ordered) {ns : List Node} {vs : List Visit}
    (hw : Walk s f ns vs) (hsight : ∀ v ∈ vs, s.Sighted v) :
    ∀ fuel, s.frames.size ≤ fuel + f.index →
      FailsExternally (s.renderNodes (s.renderWithin fuel) f ns) := by
  induction hw with
  | nil f =>
    intro fuel _
    unfold renderNodes
    exact .of_ok _
  | text f content _ ih =>
    intro fuel hfuel
    obtain ⟨hv, hvs⟩ := List.forall_mem_cons.1 hsight
    unfold renderNodes renderNode
    refine .bind (.bind (renderText_external hv) fun _ _ => .of_ok _) fun _ _ => ?_
    exact .bind (ih hvs fuel hfuel) fun _ _ => .of_ok _
  | term f key location tag content _ ih =>
    intro fuel hfuel
    obtain ⟨hv, hvs⟩ := List.forall_mem_cons.1 hsight
    unfold renderNodes renderNode
    refine .bind (renderText_external hv.1) fun _ _ => ?_
    exact .bind (ih hvs fuel hfuel) fun _ _ => .of_ok _
  | embedding f key location written hst _ _ ih =>
    intro fuel hfuel
    obtain ⟨-, hvs⟩ := List.forall_mem_cons.1 hsight
    unfold renderNodes renderNode
    rw [hst.state?]
    refine .bind (renderEmbedding_external s f location _) fun _ _ => ?_
    exact .bind (ih hvs fuel hfuel) fun _ _ => .of_ok _
  | labeled f h hst hi _ _ _ ihb ihr =>
    intro fuel hfuel
    obtain ⟨hv, hvs⟩ := List.forall_mem_cons.1 hsight
    obtain ⟨hbody, hrest⟩ := List.forall_mem_append.1 hvs
    have hinner := (Tour.index_lt_of_inside ho hi).1
    unfold renderNodes renderNode
    rw [hst.state?]
    refine .bind (.bind (renderHeading_external hv _) fun _ _ => ?_) fun _ _ => ?_
    · exact .bind (ihb hbody fuel (by omega)) fun _ _ => .of_ok _
    · exact .bind (ihr hrest fuel hfuel) fun _ _ => .of_ok _
  | expansion f key location block tag arguments hst hi _ _ ihb ihr =>
    intro fuel hfuel
    obtain ⟨-, hvs⟩ := List.forall_mem_cons.1 hsight
    obtain ⟨hbody, hrest⟩ := List.forall_mem_append.1 hvs
    obtain ⟨hlt, hsize⟩ := Tour.index_lt_of_inside ho hi
    unfold renderNodes renderNode
    rw [hst.state?]
    refine .bind ?_ fun _ _ => .bind (ihr hrest fuel hfuel) fun _ _ => .of_ok _
    cases fuel with
    | zero => omega
    | succ fuel => exact ihb hbody fuel (by omega)

/-- A document whose walk is known is written out, or documents can be blamed. -/
theorem render_external (ho : s.Ordered)
    (hwalk : ∀ path info, s.info? path = some info → ∃ vs,
      Walk s info.frame info.document.nodes vs ∧ ∀ v ∈ vs, s.Sighted v) (path : String) :
    FailsExternally (s.render path) := by
  unfold render
  cases hinfo : s.info? path with
  | none => exact .of_error id
  | some info =>
    obtain ⟨vs, hw, hsight⟩ := hwalk path info hinfo
    exact renderNodes_external ho hw hsight s.frames.size (by omega)

end Resolution

namespace Collection

variable {c : Collection}

/-- What stops a resolution is not an internal error, and neither is what a document cannot be
written out for afterwards. -/
theorem Described.errors_external (hc : c.Described) :
    (∀ e s, c.resolve = .error e s → ¬e.Internal) ∧
    ∀ s, c.resolve = .ok () s → ∀ path e, s.render path = .error e → ¬e.Internal := by
  refine ⟨fun e s hs => ?_, fun s hs path => ?_⟩
  · cases h₀ : c.beforeValues.run c.start with
    | error e₀ s₀ =>
      rw [resolve, c.phases_eq, Run.run_bind_of_error h₀] at hs
      cases hs
      exact hc.beforeValues_ends.of_error h₀
    | ok _ s₀ =>
      obtain ⟨W, huntold⟩ := hc.beforeValues_ends.of_ok h₀
      obtain ⟨vs, hsought, -⟩ := huntold.sought
      rw [resolve_eq h₀] at hs
      rcases (Run.passes_resolveValues s₀).error hsought hs with hbreak | ⟨us, rfl⟩
      · exact hbreak.external
      · exact id
  · obtain ⟨s₀, h₀⟩ := exists_beforeValues hs
    obtain ⟨W, huntold⟩ := hc.beforeValues_ends.of_ok h₀
    obtain ⟨vs, hsought, -⟩ := huntold.sought
    rw [resolve_eq h₀] at hs
    obtain ⟨ha, -⟩ := (Run.passes_resolveValues s₀).complete hsought hs
    have hlaid := huntold.toLaid.adds ha
    refine render_external hlaid.ordered (fun path info hinfo => ?_) path
    rw [info?, ha.settled.documents] at hinfo
    obtain ⟨vs, hw⟩ := huntold.exists_walk hinfo
    obtain ⟨info', hinfo', hwalk⟩ := huntold.walk path vs hw
    cases hinfo.symm.trans hinfo'
    exact ⟨vs, hwalk.keeps ha.settled.keeps, fun v hv =>
      hlaid.sighted v (List.mem_flatMap.2 ⟨_, hw, hv⟩)⟩

/-- Titles that show each other stop a resolution, but not with an internal error. -/
theorem errors_external_cyclicTitles : cyclicTitles.Described ∧
    ∃ e s, cyclicTitles.resolve = .error e s ∧ ¬e.Internal := by
  obtain ⟨us, s, hs, -⟩ := cyclicTitles_unresolved
  have hd : cyclicTitles.Described := single_described ..
  exact ⟨hd, _, s, hs, hd.errors_external.1 _ s hs⟩

end Collection

end Folio
