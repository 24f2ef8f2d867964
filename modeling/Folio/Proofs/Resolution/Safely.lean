import Folio.Proofs.Resolution.Proper
import Folio.Proofs.Resolution.Quiet

/-!
# Safe steps of registration

A step of registration *concludes* (`Run.Concludes`) if it fails only for what a document did, and
if frames lie in one another as they should behind it, whether it fails or not. It is *safe*
(`Run.Safely`) if it keeps a resolution proper besides and sets no state of a node. All that
registration does for a text, a tag or an expansion is safe:

* a value is found in a scope behind the one it is bound in, so the scopes bound the depth of values
  in values (`openValue`);
* an id is registered together with its text as an anchor, so an anchor is found taken before an id
  is (`Registry.registerIn_ends`).
-/

namespace Folio

open Resolution

theorem Run.registry_ends {α : Type} {R : ResolveError → Prop} {s : Resolution}
    {step : Registry.Step α} {Q : α → Resolution → Prop} : Ends R (Run.registry step) s Q ↔
      Ends R step s.registry fun a registry => Q a { s with registry } := by
  unfold Run.registry Ends
  cases h : step s.registry <;> simp only [h]

/-- The step answers as `Q` says, or fails for what a document did. Either way it leaves frames that
lie in one another as they should. -/
structure Run.Concludes {α : Type} (c : Collection) (m : Run α) (s : Resolution)
    (Q : α → Resolution → Prop) : Prop where
  ends : Ends ResolveError.External m s Q
  framed : Leaves (Framed c) m s

namespace Run.Concludes

variable {c : Collection} {α β : Type} {s : Resolution} {P : α → Resolution → Prop}
  {Q : β → Resolution → Prop}

theorem of_ok {m : Run α} {a : α} {s' : Resolution} (hm : m s = .ok a s') (hs : s'.Framed c)
    (h : P a s') : Concludes c m s P where
  ends := by simpa [Ends, hm] using h
  framed := .of_ok hm hs

theorem mono {m : Run α} {P' : α → Resolution → Prop} (h : Concludes c m s P)
    (hP : ∀ a s', P a s' → P' a s') : Concludes c m s P' :=
  ⟨h.ends.mono hP, h.framed⟩

/-- What a step does when it succeeds may be used besides. -/
theorem inspect {m : Run α} {P' : α → Resolution → Prop} (h : Concludes c m s P)
    (h' : After True m s P') : Concludes c m s fun a s' => P' a s' ∧ P a s' :=
  ⟨h.ends.inspect h', h.framed⟩

theorem bind {m : Run α} {k : α → Run β} (hm : Concludes c m s P)
    (hk : ∀ a s', P a s' → Concludes c (k a) s' Q) : Concludes c (m >>= k) s Q where
  ends := Ends.bind_iff.2 (hm.ends.mono fun a s' h => (hk a s' h).ends)
  framed := hm.framed.bind fun a s' h => (hk a s' (hm.ends.of_ok h)).framed

theorem get_bind {k : Resolution → Run β} (h : Concludes c (k s) s Q) :
    Concludes c (get >>= k) s Q :=
  ⟨Ends.bind_iff.2 h.ends, h.framed⟩

theorem set_bind {s' : Resolution} {k : PUnit → Run β} (h : Concludes c (k ⟨⟩) s' Q) :
    Concludes c (set s' >>= k) s Q :=
  ⟨Ends.bind_iff.2 h.ends, h.framed⟩

theorem modify_bind {g : Resolution → Resolution} {k : PUnit → Run β}
    (h : Concludes c (k ⟨⟩) (g s) Q) : Concludes c (modify g >>= k) s Q :=
  ⟨Ends.bind_iff.2 h.ends, h.framed⟩

theorem pushFrame_bind {frame : Frame} {k : FrameId → Run β}
    (h : Concludes c (k s.freshFrame) { s with frames := s.frames.push frame } Q) :
    Concludes c (pushFrame frame >>= k) s Q :=
  ⟨Ends.bind_iff.2 h.ends, h.framed⟩

theorem fail {location : Location} {cause : Cause} (hs : s.Framed c) (h : ¬cause.Internal) :
    Concludes c (Run.fail location cause) s P := ⟨h, hs⟩

theorem fail_bind {location : Location} {cause : Cause} (hs : s.Framed c) (h : ¬cause.Internal)
    {k : α → Run β} : Concludes c (Run.fail location cause >>= k) s Q := ⟨h, hs⟩

/-- A step of the registry does nothing to frames. -/
theorem registry {step : Registry.Step α} (hs : s.Framed c)
    (h : Ends ResolveError.External step s.registry fun a r => P a { s with registry := r }) :
    Concludes c (Run.registry step) s P := by
  refine ⟨registry_ends.2 h, ?_⟩
  unfold Run.registry Leaves
  cases hm : step s.registry <;> simp only [hm] <;> exact hs.of_frames rfl

/-- What every round keeps is kept by the loop; `J` is about the elements that are done and those
still to do. -/
theorem forM_split {xs : List β} {f : β → Run PUnit} {J : List β → List β → Resolution → Prop}
    (hf : ∀ pre x post s, pre ++ x :: post = xs → J pre (x :: post) s →
      Concludes c (f x) s fun _ s' => J (pre ++ [x]) post s')
    (hJ : ∀ s, J xs [] s → s.Framed c) (h : J [] xs s) :
    Concludes c (xs.forM f) s fun _ s' => J xs [] s' := by
  suffices ∀ pre post s, pre ++ post = xs → J pre post s →
      Concludes c (post.forM f) s fun _ s' => J xs [] s' from this [] xs s rfl h
  intro pre post
  induction post generalizing pre with
  | nil =>
    rintro s rfl h
    rw [List.append_nil] at hJ ⊢
    exact .of_ok rfl (hJ s h) h
  | cons x post ih =>
    intro s hxs h
    exact (hf pre x post s hxs h).bind fun _ s' h' => ih (pre ++ [x]) s' (by simpa using hxs) h'

end Run.Concludes

/-- The step keeps a resolution proper, sets no state of a node, and fails only for what a document
did. -/
def Run.Safely {α : Type} (c : Collection) (m : Run α) (s : Resolution)
    (Q : α → Resolution → Prop) : Prop :=
  Concludes c m s fun a s' => s'.Proper c ∧ s.Furthers c Nowhere s' ∧ Q a s'

namespace Run.Safely

variable {c : Collection} {α β : Type} {s : Resolution} {P : α → Resolution → Prop}
  {Q : β → Resolution → Prop} {location : Location}

theorem of_ok {m : Run α} {a : α} {s' : Resolution} (hm : m s = .ok a s')
    (hs : s'.Proper c ∧ s.Furthers c Nowhere s') (h : P a s') : Safely c m s P :=
  Concludes.of_ok hm hs.1.toFramed ⟨hs.1, hs.2, h⟩

theorem mono {m : Run α} {P' : α → Resolution → Prop} (h : Safely c m s P)
    (hP : ∀ a s', s.Furthers c Nowhere s' → P a s' → P' a s') : Safely c m s P' :=
  Concludes.mono h fun a s' ⟨hs, hf, hP'⟩ => ⟨hs, hf, hP a s' hf hP'⟩

theorem pure (hs : s.Proper c) {a : α} (h : P a s) : Safely c (Pure.pure a) s P :=
  of_ok rfl ⟨hs, .refl s⟩ h

/-- What follows a step that is safe need not be safe itself. -/
theorem concludes_bind {m : Run α} {k : α → Run β} (hm : Safely c m s P)
    (hk : ∀ a s', s'.Proper c → s.Furthers c Nowhere s' → P a s' → Concludes c (k a) s' Q) :
    Concludes c (m >>= k) s Q :=
  Concludes.bind hm fun a s' ⟨hs', hf, hP⟩ => hk a s' hs' hf hP

/-- A step behind one that is safe starts from a proper state. -/
theorem bind {m : Run α} {k : α → Run β} (hm : Safely c m s P)
    (hk : ∀ a s', s'.Proper c → s.Furthers c Nowhere s' → P a s' → Safely c (k a) s' Q) :
    Safely c (m >>= k) s Q :=
  hm.concludes_bind fun a s' hs' hf hP =>
    Concludes.mono (hk a s' hs' hf hP) fun _ _ ⟨hs'', hf', hQ⟩ => ⟨hs'', hf.trans hf', hQ⟩

theorem get_bind {k : Resolution → Run β} (h : Safely c (k s) s Q) : Safely c (get >>= k) s Q :=
  Concludes.get_bind h

theorem set_bind {s' : Resolution} {k : PUnit → Run β} (h : s'.Proper c ∧ s.Furthers c Nowhere s')
    (hk : Safely c (k ⟨⟩) s' Q) : Safely c (set s' >>= k) s Q :=
  Concludes.set_bind (Concludes.mono hk fun _ _ ⟨hs'', hf, hQ⟩ => ⟨hs'', h.2.trans hf, hQ⟩)

theorem fail (hs : s.Proper c) {cause : Cause} (h : ¬cause.Internal) :
    Safely c (Run.fail location cause) s P := Concludes.fail hs.toFramed h

theorem fail_bind (hs : s.Proper c) {cause : Cause} (h : ¬cause.Internal) {k : α → Run β} :
    Safely c (Run.fail location cause >>= k) s Q := Concludes.fail_bind hs.toFramed h

theorem orFail (hs : s.Proper c) {cause : Cause} (hc : ¬cause.Internal) {x : Option α}
    (h : ∀ a, x = some a → P a s) : Safely c (Run.orFail location cause x) s P := by
  cases x with
  | none => exact fail hs hc
  | some a => exact pure hs (h a rfl)

theorem ofLink (hs : s.Proper c) {x : Except LinkError α} (h : ∀ a, x = .ok a → P a s) :
    Safely c (Run.ofLink location x) s P := by
  cases x with
  | error e => exact fail hs id
  | ok a => exact pure hs (h a rfl)

/-- `J` is about the elements that are done. -/
theorem forM {xs : List β} {f : β → Run PUnit} (hs : s.Proper c) {J : List β → Resolution → Prop}
    (hf : ∀ pre x post s', pre ++ x :: post = xs → s'.Proper c → s.Furthers c Nowhere s' →
      J pre s' → Safely c (f x) s' fun _ s'' => J (pre ++ [x]) s'')
    (h : J [] s) : Safely c (xs.forM f) s fun _ s' => J xs s' := by
  suffices ∀ pre post s', pre ++ post = xs → s'.Proper c → s.Furthers c Nowhere s' → J pre s' →
      Safely c (post.forM f) s' fun _ s'' => J xs s'' from this [] xs s rfl hs (.refl s) h
  intro pre post
  induction post generalizing pre with
  | nil =>
    intro s' hxs hs' _ hJ
    rw [List.append_nil] at hxs
    exact pure hs' (hxs ▸ hJ)
  | cons x post ih =>
    intro s' hxs hs' hfs hJ
    change Safely c (f x >>= fun _ => post.forM f) s' _
    exact (hf pre x post s' hxs hs' hfs hJ).bind fun _ s'' hs'' hf' hJ' =>
      ih (pre ++ [x]) s'' (by simpa using hxs) hs'' (hfs.trans hf') hJ'

theorem mapM {xs : List β} {f : β → Run α} (hs : s.Proper c)
    (hf : ∀ x ∈ xs, ∀ s', s'.Proper c → s.Furthers c Nowhere s' →
      Safely c (f x) s' fun _ _ => True) : Safely c (xs.mapM f) s fun _ _ => True := by
  suffices ∀ ys ⊆ xs, ∀ s', s'.Proper c → s.Furthers c Nowhere s' →
      Safely c (ys.mapM f) s' fun _ _ => True from
    this xs (List.Subset.refl xs) s hs (.refl s)
  intro ys
  induction ys with
  | nil => exact fun _ s' hs' _ => pure hs' trivial
  | cons y ys ih =>
    intro hys s' hs' hfs
    obtain ⟨hy, hys⟩ := List.cons_subset.1 hys
    rw [List.mapM_cons]
    refine (hf y hy s' hs' hfs).bind fun _ s'' hs'' hf' _ => ?_
    exact (ih hys s'' hs'' (hfs.trans hf')).bind fun _ _ hs₃ _ _ => pure hs₃ trivial

end Run.Safely

/-! ## Texts -/

namespace Resolution

/-- The link that is written in the document of a frame. -/
def linkFor? (s : Resolution) (f : FrameId) (written : String) : Except LinkError Link := do
  let link ← Link.read? true written
  link.abs? (s.documentOf f) false

/-- The block that a written link leads to, as seen from a frame. -/
def blockFor? (s : Resolution) (f : FrameId) (written : String) : Option BlockEntry := do
  let link ← (s.linkFor? f written).toOption
  (s.registry.lookupBlock (s.scopeOf f) link).bind s.registry.block?

end Resolution

namespace Run

variable {c : Collection} {α : Type} {s : Resolution} {f : FrameId} {frame : Frame}

theorem pushFrame_safely (hs : s.Proper c) {fr : Frame} (hp : ∀ p, fr.parent = some p →
      p.index < s.frames.size) (hscope : fr.scope.index < s.registry.scopes.size)
    (ha : s.Admits c fr) (hd : (s.info? fr.document).isSome) :
    Safely c (pushFrame fr) s fun inner s' => s'.frame? inner = some fr :=
  .of_ok rfl (hs.push hp hscope ha hd) ((frame?_push (s := s) fr s.freshFrame).trans (if_pos rfl))

/-- A value is bound in an earlier scope than the one it is looked up in. -/
theorem boundIn_lookupValue (hs : s.Proper c) {σ : ScopeId} {name : String} {v : ValueId}
    (h : s.registry.lookupValue σ name = some v) : s.BoundIn v (·.index < σ.index) := by
  obtain ⟨τ, hτ, hv⟩ := List.exists_of_findSome?_eq_some h
  obtain ⟨sc, hsc, hv⟩ := Option.bind_eq_some_iff.1 hv
  have hle := hs.registry.index_le_of_mem_staticChain hτ
  obtain ⟨binding, fr, hb, hf, hlt⟩ := hs.value τ sc name v hsc hv
  exact ⟨binding, fr, hb, hf, Nat.lt_of_lt_of_le hlt hle⟩

/-- The text of a value is handled in an earlier scope. -/
theorem openValue_safely (hs : s.Proper c) (hf : s.frame? f = some frame) {location : Location}
    {cause : Cause} (hc : ¬cause.Internal) (name : String) {k : Binding → FrameId → Run α}
    {Q : α → Resolution → Prop}
    (hk : ∀ binding inner fr s', s'.Proper c → s.Furthers c Nowhere s' → c.HasText binding.body →
      s'.frame? inner = some fr → fr.scope.index < frame.scope.index →
      Safely c (k binding inner) s' Q) :
    Safely c (do
      let binding ← orFail location cause (← lookupValue f name)
      let inner ← staticFrame f binding
      k binding inner) s Q := by
  unfold lookupValue
  simp only [bind_assoc, pure_bind]
  refine .get_bind ?_
  rw [scopeOf_eq hf]
  refine (Safely.orFail (P := fun binding s' => s' = s ∧ c.HasText binding.body ∧
    ∃ fr, s.frame? binding.frame = some fr ∧ fr.scope.index < frame.scope.index) hs hc
    fun binding h => ?_).bind ?_
  · obtain ⟨v, hv, hb⟩ := Option.bind_eq_some_iff.1 h
    obtain ⟨binding', fr, hb', hfr, hlt⟩ := boundIn_lookupValue hs hv
    cases hb.symm.trans hb'
    exact ⟨rfl, hs.registry.text v binding hb, fr, hfr, hlt⟩
  rintro binding s' hs' - ⟨rfl, htext, fr, hfr, hlt⟩
  unfold staticFrame
  rw [bind_assoc]
  refine .get_bind ?_
  rw [scopeOf_eq hfr, documentOf_eq hf]
  set opened : Frame := ⟨some f, frame.document, fr.scope, .static⟩ with hopened
  have hparent : ∀ p, opened.parent = some p → p.index < s'.frames.size := by
    rintro p ⟨⟩
    exact index_lt_of_frame? hf
  have hadmits : s'.Admits c opened := ⟨f, frame, rfl, hf, hlt⟩
  refine (pushFrame_safely hs' hparent (hs'.scope_lt _ fr hfr) hadmits
    (hs'.documented f frame hf)).bind fun inner s₁ hs₁ h₁ hinner => ?_
  exact hk binding inner opened s₁ hs₁ h₁ htext hinner hlt

theorem staticTextWithin_safely {fuel : Nat} {body : InlineText} (hs : s.Proper c)
    (hf : s.frame? f = some frame) (hfuel : frame.scope.index < fuel) :
    Safely c (staticTextWithin fuel f body) s fun _ _ => True := by
  induction fuel generalizing s f frame body with
  | zero => omega
  | succ fuel ih =>
    unfold staticTextWithin
    refine (Safely.mapM hs fun part _ s₁ hs₁ h₁ => ?_).bind fun _ _ hs' _ _ => .pure hs' trivial
    obtain ⟨frame₁, hf₁, ha⟩ := h₁.frame f frame hf
    rcases part with text | ⟨key, aspect, link⟩ | ⟨key, name⟩ | name | tag
    · exact .pure hs₁ trivial
    · exact .fail hs₁ id
    · refine openValue_safely hs₁ hf₁ id name fun binding inner fr s₂ hs₂ _ _ hinner hlt => ?_
      rw [ha.2.2.1] at hlt
      exact ih hs₂ hinner (by omega)
    · exact .get_bind (.orFail hs₁ id fun _ _ => trivial)
    · exact .fail hs₁ id

theorem staticText_safely {body : InlineText} (hs : s.Proper c) (hf : s.frame? f = some frame) :
    Safely c (staticText f body) s fun _ _ => True := by
  have hlt := hs.scope_lt f frame hf
  exact .get_bind (staticTextWithin_safely hs hf (by omega))

theorem readLink_safely (hs : s.Proper c) (f : FrameId) (location : Location) (text : String) :
    Safely c (readLink f location text) s fun link s' =>
      s' = s ∧ s.linkFor? f text = .ok link := by
  refine (Safely.ofLink (P := fun link s' => s' = s ∧ Link.read? true text = .ok link) hs
    fun link h => ⟨rfl, h⟩).bind ?_
  rintro link s' hs' - ⟨rfl, hread⟩
  refine .get_bind (.ofLink hs' fun link' habs => ⟨rfl, ?_⟩)
  rw [linkFor?, hread]
  exact habs

/-- A reference is kept with the link that was read for it. -/
theorem setReference_safely (hc : c.Described) (hs : s.Proper c) (hf : s.frame? f = some frame)
    {t : InlineText} (ht : c.HasText t) {key : NodeKey} {aspect : Aspect} {text : String}
    (hp : .reference key aspect text ∈ t.parts) (link : Link) :
    Safely c (setState f key (.reference link none)) s fun _ s' =>
      (s'.stateIn? frame.scope key).isSome := by
  have hsuits : c.Suits key (.reference link none) := ⟨t, ht, aspect, text, hp⟩
  obtain ⟨hs', h⟩ := hs.setPart hc hf ht hp rfl hsuits
  refine .of_ok rfl ⟨hs', h, fun σ k inner body hst => ?_⟩ ?_
  · rw [stateIn?_setState] at hst
    split at hst
    · cases hst
    · exact .inl hst
  · change ((s.setState f key _).stateIn? frame.scope key).isSome = true
    rw [stateIn?_setState, scopeOf_eq hf, if_pos ⟨rfl, rfl⟩]
    rfl

/-- A value is kept before its own text is registered, and is complete once this is done. -/
theorem setState_value_safely (hc : c.Described) (hs : s.Proper c) (hf : s.frame? f = some frame)
    {t : InlineText} (ht : c.HasText t) {key : NodeKey} {name : String}
    (hp : .value key name ∈ t.parts) {inner : FrameId} {fr : Frame} {body : InlineText}
    (hi : s.frame? inner = some fr) (hbody : c.HasText body)
    (hlt : fr.scope.index < frame.scope.index) {m : Run Unit}
    (hm : ∀ s', s'.Proper c → s'.frame? inner = some fr →
      Safely c m s' fun _ s'' => s''.Held fr.scope body) :
    Safely c (setState f key (.value inner body) >>= fun _ => m) s fun _ s' =>
      (s'.stateIn? frame.scope key).isSome := by
  have hsuits : c.Suits key (.value inner body) := ⟨t, ht, name, hp⟩
  obtain ⟨hs', h⟩ := hs.setPart hc hf ht hp rfl hsuits
  set s₁ := s.setState f key (.value inner body) with hs₁
  have hset : s₁.stateIn? frame.scope key = some (.value inner body) := by
    rw [hs₁, stateIn?_setState, scopeOf_eq hf, if_pos ⟨rfl, rfl⟩]
  refine Concludes.modify_bind (Concludes.mono (hm s₁ hs' hi) ?_)
  rintro _ s₂ ⟨hs₂, h₂, hheld⟩
  have hcomplete : s₂.Complete c frame.scope inner body := by
    obtain ⟨fr', hi', -, -, hscope, -⟩ := h₂.frame inner fr hi
    exact ⟨fr', hi', hscope ▸ hlt, hbody, hscope ▸ hheld⟩
  refine ⟨hs₂, .append_value frame.scope key h h₂ ?_ ?_, h₂.kept _ _ (by rw [hset]; rfl)⟩
  · intro inner' body' hst
    cases hset.symm.trans hst
    exact hcomplete
  · intro σ k hne
    rw [hs₁, stateIn?_setState, scopeOf_eq hf, if_neg hne]

/-- The parts of a text that is registered have states, and so have those of its values. -/
theorem registerTextWithin_safely (hc : c.Described) {fuel : Nat} {body : InlineText}
    (hs : s.Proper c) (hf : s.frame? f = some frame) (hb : c.HasText body)
    (hfuel : frame.scope.index < fuel) :
    Safely c (registerTextWithin fuel f body) s fun _ s' => s'.Held frame.scope body := by
  induction fuel generalizing s f frame body with
  | zero => omega
  | succ fuel ih =>
    unfold registerTextWithin
    refine Safely.forM (J := fun (pre : List Part) s' => ∀ p ∈ pre, ∀ k,
      p.key? = some k → (s'.stateIn? frame.scope k).isSome) hs ?_ (by simp)
    intro pre part post s₁ hparts hs₁ h₁ hpre
    have hpart : part ∈ body.parts := by simp [← hparts]
    obtain ⟨frame₁, hf₁, -, -, hscope, -⟩ := h₁.frame f frame hf
    -- what is done stays, so only the state of the present part is left
    have hdone : ∀ s', s₁.Furthers c Nowhere s' →
        (∀ k, part.key? = some k → (s'.stateIn? frame.scope k).isSome) →
        ∀ p ∈ pre ++ [part], ∀ k, p.key? = some k → (s'.stateIn? frame.scope k).isSome := by
      intro s' h' hnew p hp k hk
      rcases List.mem_append.1 hp with hp | hp
      · exact h'.kept _ k (hpre p hp k hk)
      · exact hnew k (List.mem_singleton.1 hp ▸ hk)
    rcases part with text | ⟨key, aspect, link⟩ | ⟨key, name⟩ | name | tag
    · exact .pure hs₁ (hdone s₁ (.refl s₁) (by simp [Part.key?]))
    · refine ((readLink_safely hs₁ f body.location link).bind fun link' s₂ hs₂ h₂ _ => ?_).mono
        fun _ => hdone
      obtain ⟨frame₂, hf₂, -, -, hscope₂, -⟩ := h₂.frame f frame₁ hf₁
      refine (setReference_safely hc hs₂ hf₂ hb hpart link').mono fun _ s' _ hset k hk => ?_
      cases hk
      rwa [hscope₂, hscope] at hset
    · refine (openValue_safely hs₁ hf₁ id name
        fun binding inner fr s₂ hs₂ h₂ htext hinner hlt => ?_).mono fun _ => hdone
      obtain ⟨frame₂, hf₂, -, -, hscope₂, -⟩ := h₂.frame f frame₁ hf₁
      refine (setState_value_safely hc hs₂ hf₂ hb hpart hinner htext (hscope₂ ▸ hlt)
        fun s' hs' hi => ih hs' hi htext ?_).mono fun _ s' _ hset k hk => ?_
      · rw [hscope] at hlt
        omega
      · cases hk
        rwa [hscope₂, hscope] at hset
    · exact .get_bind ((Safely.orFail (P := fun _ s' => s' = s₁) hs₁ id fun _ _ => rfl).bind
        fun _ s₂ hs₂ _ heq => .pure hs₂ (heq ▸ hdone s₁ (.refl s₁) (by simp [Part.key?])))
    · exact .pure hs₁ (hdone s₁ (.refl s₁) (by simp [Part.key?]))

theorem registerText_safely (hc : c.Described) {body : InlineText} (hs : s.Proper c)
    (hf : s.frame? f = some frame) (hb : c.HasText body) :
    Safely c (registerText f body) s fun _ s' => s'.Held frame.scope body := by
  have hlt := hs.scope_lt f frame hf
  exact .get_bind (registerTextWithin_safely hc hs hf hb (by omega))

/-! ## Tags -/

theorem substitution_safely (hs : s.Proper c) (hf : s.frame? f = some frame) (location : Location)
    (name : String) : Safely c (substitution f location name) s fun _ _ => True := by
  refine .get_bind ?_
  split
  · exact .pure hs trivial
  · refine openValue_safely hs hf id name fun binding inner fr s₁ hs₁ _ _ hinner _ => ?_
    exact (staticText_safely hs₁ hinner).bind fun _ _ hs₂ _ _ => .pure hs₂ trivial

theorem substitute_safely (hs : s.Proper c) (hf : s.frame? f = some frame) (location : Location)
    (inDocument : Bool) (tag : String) (name : Option (List Char)) (read : String × Bool)
    (cs : List Char) :
    Safely c (substitute f location inDocument tag name read cs) s fun _ _ => True := by
  induction cs generalizing s frame name read with
  | nil =>
    cases name with
    | none => exact .pure hs trivial
    | some name => exact .fail hs id
  | cons ch cs ih =>
    obtain ⟨text, explicit⟩ := read
    cases name with
    | none =>
      unfold substitute
      split
      · exact ih hs hf _ _
      · split
        · exact .fail hs id
        · exact ih hs hf _ _
    | some name =>
      unfold substitute
      split
      · exact ih hs hf _ _
      · split
        · exact .fail hs id
        · refine (substitution_safely hs hf location _).bind fun text s₁ hs₁ h₁ _ => ?_
          obtain ⟨frame₁, hf₁, -⟩ := h₁.frame f frame hf
          dsimp only
          split
          · exact .fail_bind hs₁ id
          · exact ih hs₁ hf₁ _ _

theorem evaluateTag_safely (hs : s.Proper c) (hf : s.frame? f = some frame) (location : Location)
    (tag : String) : Safely c (evaluateTag f location tag) s fun _ _ => True :=
  .get_bind (substitute_safely hs hf location _ tag _ _ _)

end Run

/-! ## Names -/

theorem isSome_lookup_map {tags : List String} {tag : String} (h : tag ∈ tags) (id : EntryId) :
    ((tags.map fun tag => (tag, id)).lookup tag).isSome := by
  obtain ⟨v, hv⟩ : ∃ v, (tags.map fun tag => (tag, id)).lookup tag = some v := by
    rw [← Table.mem_keys_iff]
    simpa [Table.keys, Function.comp_def] using h
  rw [hv]
  rfl

namespace Registry

variable {c : Collection} {r : Registry}

/-- An anchor is found taken before an id is, since each id has an anchor. -/
theorem registerIn_ends (hr : r.Proper c) (σ : ScopeId) (id : EntryId) (e : Entry)
    {tags : List String} (ht : e.id.text ∈ tags) :
    Ends ResolveError.External (registerIn σ id e tags) r fun _ r' => Names c r r' := by
  unfold registerIn
  rw [Ends.bind_iff, Ends.get_iff]
  cases hsc : r.scope? σ with
  | none => exact .refl r
  | some sc =>
    dsimp only
    cases htaken : tags.findSome? fun tag => (sc.anchors.lookup tag).map (tag, ·) with
    | some taken => exact not_false
    | none =>
      have hanchor : sc.anchors.lookup e.id.text = none := by
        simpa using List.findSome?_eq_none_iff.1 htaken e.id.text ht
      cases hid : sc.ids.lookup e.id with
      | some other =>
        have hsome := hr.anchored σ sc hsc e.id other hid
        rw [hanchor] at hsome
        cases hsome
      | none =>
        refine .modifyScope r σ (fun _ => rfl) (fun _ => rfl) fun sc' ha id' e' hid' => ?_
        rw [List.lookup_append]
        rw [List.lookup_cons] at hid'
        split at hid'
        next heq =>
          rw [eq_of_beq heq, Option.isSome_or, isSome_lookup_map ht, Bool.true_or]
        · rw [Option.isSome_or, ha id' e' hid', Bool.or_true]

theorem getLast?_liftAll (sc : Scope) {tags : List String} {tag : String}
    (h : tags.getLast? = some tag) : (sc.liftAll tags).getLast? = some tag := by
  simp [Scope.liftAll, h]

theorem registerUp_ends (hr : r.Proper c) (id : EntryId) (e : Entry) (explicit : Bool)
    (scopes : List ScopeId) {tags : List String} (ht : tags.getLast? = some e.id.text) :
    Ends ResolveError.External (registerUp id e explicit scopes tags) r fun _ r' =>
      Names c r r' := by
  induction scopes generalizing r tags with
  | nil => exact .refl r
  | cons σ rest ih =>
    unfold registerUp
    rw [Ends.bind_iff]
    refine (registerIn_ends hr σ id e (List.mem_of_getLast? ht)).mono fun _ r₁ h₁ => ?_
    rw [Ends.bind_iff, Ends.get_iff]
    refine (ih (h₁.proper hr) ?_).mono fun _ _ h => h₁.trans h
    split
    · split
      · exact ht
      · exact getLast?_liftAll _ ht
    · exact ht

theorem registerAddress_ends (id : EntryId) (e : Entry) (tag : String) :
    Ends ResolveError.External (registerAddress id e tag) r fun _ r' => Names c r r' := by
  unfold registerAddress
  rw [Ends.bind_iff, Ends.get_iff]
  dsimp only
  split
  · exact not_false
  · exact .modifyIndex ..

theorem registerEntry_ends (hr : r.Proper c) (σ : ScopeId) {e : Entry} (he : e.title = none)
    {tags : List String} (ht : tags.getLast? = some e.id.text) (explicit : Bool) :
    Ends ResolveError.External (registerEntry σ e tags explicit) r fun _ r' => Names c r r' := by
  unfold registerEntry
  rw [Ends.bind_iff, Ends.get_iff]
  dsimp only
  rw [Ends.bind_iff, Ends.set_iff, Ends.bind_iff]
  have h₀ : Names c r { r with entries := r.entries.push e } := .pushEntry r he
  refine (registerUp_ends (h₀.proper hr) _ e explicit _ ht).mono fun tags' r₁ h₁ => ?_
  rw [Ends.bind_iff]
  refine (Ends.forM (I := fun r' => Names c r r') (fun tag _ r' h' => ?_) (h₀.trans h₁)).mono
    fun _ r₂ h₂ => ?_
  · exact (registerAddress_ends _ e tag).mono fun _ _ h => h'.trans h
  · rw [Ends.bind_iff, Ends.modify_iff, Ends.bind_iff, Ends.modify_iff, Ends.pure_iff]
    refine (h₂.trans ?_).trans (.modifyEntry _ _ fun _ => rfl)
    split
    · exact .modifyIndex ..
    · exact .refl r₂

theorem registerTagUp_ends (typ : String) (e : TagEntry) (explicit : Bool)
    (scopes : List ScopeId) (document tag : String) :
    Ends ResolveError.External (registerTagUp typ e explicit scopes document tag) r fun _ r' =>
      Names c r r' := by
  induction scopes generalizing r document tag with
  | nil => exact .refl r
  | cons σ rest ih =>
    unfold registerTagUp
    rw [Ends.bind_iff, Ends.get_iff]
    split
    · exact ih _ _
    · split
      · exact not_false
      · rw [Ends.bind_iff]
        have h : Names c r (r.modifyScope σ fun sc =>
            { sc with tags := ((typ, tag), e) :: sc.tags }) :=
          .modifyScope r σ (fun _ => rfl) (fun _ => rfl) fun _ ha => ha
        exact (ih _ _).mono fun _ _ h' => h.trans h'

theorem registerTag_ends (σ : ScopeId) (typ tag : String) (e : TagEntry) (explicit : Bool) :
    Ends ResolveError.External (registerTag σ typ tag e explicit) r fun _ r' => Names c r r' := by
  unfold registerTag
  rw [Ends.bind_iff, Ends.get_iff, Ends.bind_iff]
  refine (registerTagUp_ends (c := c) typ e explicit _ "" tag).mono ?_
  rintro ⟨document, tag⟩ r' hr'
  dsimp only
  rw [Ends.bind_iff, Ends.get_iff]
  split
  · exact not_false
  · exact hr'.trans (.modifyIndex ..)

theorem registerBlockUp_ends (tag : String) (location : Location) (id : BlockId)
    (scopes : List ScopeId) :
    Ends ResolveError.External (registerBlockUp tag location id scopes) r fun _ r' =>
      Names c r r' := by
  induction scopes generalizing r with
  | nil =>
    unfold registerBlockUp
    rw [Ends.bind_iff, Ends.get_iff]
    dsimp only
    split
    · exact not_false
    · exact .modifyIndex ..
  | cons σ rest ih =>
    unfold registerBlockUp
    rw [Ends.bind_iff, Ends.get_iff]
    dsimp only
    split
    · exact not_false
    · have h : Names c r (r.modifyScope σ fun sc => { sc with blocks := (tag, id) :: sc.blocks }) :=
        .modifyScope r σ (fun _ => rfl) (fun _ => rfl) fun _ ha => ha
      rw [Ends.bind_iff]
      change Ends _ (if Path.isAbs tag = true then _ else _) _ _
      split
      · exact ih.mono fun _ _ h' => h.trans h'
      · exact h

end Registry

namespace Run

variable {c : Collection} {s : Resolution} {f : FrameId} {frame : Frame}

theorem registry_safely {α : Type} {step : Registry.Step α} (hs : s.Proper c)
    (h : Ends ResolveError.External step s.registry fun _ r => Registry.Names c s.registry r) :
    Safely c (Run.registry step) s fun _ _ => True :=
  .registry hs.toFramed (h.mono fun _ _ hr => ⟨(hs.names hr).1, (hs.names hr).2, trivial⟩)

/-! ## Blocks -/

theorem addValue_safely {body : InlineText} (hs : s.Proper c) (hb : c.HasText body)
    (hf : s.frame? f = some frame) :
    Safely c (addValue body f) s fun v s' => s'.BoundIn v (· = frame.scope) := by
  obtain ⟨hproper, hfur, hv⟩ := hs.addValue hb hf
  exact .get_bind (.set_bind ⟨hproper, hfur⟩ (.pure hproper hv))

/-- Values in a table are bound in a scope. -/
def Defaults (σ : ScopeId) (defaults : Table ValueId) (s : Resolution) : Prop :=
  ∀ name v, defaults.lookup name = some v → s.BoundIn v (· = σ)

theorem bindDefaults_safely {ps : List Parameter} {defaults : Table ValueId} (hs : s.Proper c)
    (hf : s.frame? f = some frame) (hp : ∀ p ∈ ps, ∀ body, p.default = some body → c.HasText body)
    (hd : Defaults frame.scope defaults s) :
    Safely c (bindDefaults f ps defaults) s fun table s' => Defaults frame.scope table s' := by
  induction ps generalizing s frame defaults with
  | nil => exact .pure hs hd
  | cons p rest ih =>
    have hrest : ∀ q ∈ rest, ∀ body, q.default = some body → c.HasText body :=
      fun q hq => hp q (List.mem_cons_of_mem p hq)
    unfold bindDefaults
    split
    · exact ih hs hf hrest hd
    next body hbody =>
      obtain ⟨hproper, hfur, hv⟩ := hs.addValue (hp p (List.mem_cons_self ..) body hbody) hf
      refine .get_bind (.set_bind ⟨hproper, hfur⟩ (ih hproper hf hrest fun name v hlookup => ?_))
      rw [Table.lookup_put] at hlookup
      split at hlookup
      · cases hlookup
        exact hv
      · exact hfur.boundIn (hd name v hlookup)

theorem registerBlocks_safely (hs : s.Proper c) (hf : s.frame? f = some frame)
    {blocks : List Block} (hb : ∀ b ∈ blocks, c.HasBlock b) :
    Safely c (registerBlocks frame.scope f blocks) s fun _ _ => True := by
  refine Safely.forM (J := fun _ _ => True) hs (fun pre b post s₁ hbs hs₁ h₁ _ => ?_) trivial
  have hblock := hb b (by simp [← hbs])
  obtain ⟨frame₁, hf₁, ha₁⟩ := h₁.frame f frame hf
  refine (bindDefaults_safely hs₁ hf₁ (fun p hp body => hblock.default hp)
    fun name v hv => by cases hv).bind fun defaults s₂ hs₂ h₂ hd => ?_
  obtain ⟨frame₂, hf₂, ha₂⟩ := h₂.frame f frame₁ hf₁
  have hlt := hs₂.scope_lt f frame₂ hf₂
  rw [ha₂.2.2.1, ha₁.2.2.1] at hlt
  rw [ha₁.2.2.1] at hd
  obtain ⟨hs₃, h₃⟩ := hs₂.pushBlock { block := b, scope := frame.scope, defaults } hblock hlt hd
  refine Safely.bind (P := fun _ _ => True) ?_ fun _ _ hs' _ _ => .pure hs' trivial
  refine .registry hs₂.toFramed ?_
  unfold Registry.registerBlock
  rw [Ends.bind_iff, Ends.get_iff]
  dsimp only
  rw [Ends.bind_iff, Ends.set_iff, Ends.bind_iff]
  refine (Registry.registerBlockUp_ends (c := c) _ _ _ _).mono fun _ r hr => ?_
  obtain ⟨hs₄, h₄⟩ := hs₃.names hr
  exact ⟨hs₄, h₃.trans h₄, trivial⟩

/-! ## Expansions -/

/-- What the frame of an expansion adds: it lies in the one of the caller, has a scope that is new,
and the name of the block is added to the call stack. -/
structure Entered (s s' : Resolution) (f inner : FrameId) (name : String) : Prop where
  frame : ∃ frame calls, s'.frame? inner = some frame ∧ frame.parent = some f ∧
    frame.kind = .block calls ∧ calls.trail.entries = (s.callStack f).trail.entries ++ [name] ∧
    s.registry.scopes.size ≤ frame.scope.index

theorem Entered.trans {s' s'' : Resolution} {inner : FrameId} {name : String}
    (h : Entered s s' f inner name) (h' : s'.Furthers c Nowhere s'') :
    Entered s s'' f inner name := by
  obtain ⟨frame, calls, hf, hp, hk, hcalls, hscope⟩ := h.frame
  obtain ⟨frame', hf', hp', -, hs, ha⟩ := h'.frame inner frame hf
  refine ⟨frame', calls, hf', hp'.trans hp, ?_, hcalls, hs ▸ hscope⟩
  rw [hk] at ha
  cases hk' : frame'.kind <;> rw [hk'] at ha <;> simp_all [FrameKind.Alike]

theorem Entered.of_furthers {s₁ s' : Resolution} {inner : FrameId} {name : String}
    (hs : s.Proper c) (hs₁ : s₁.Proper c) (h₁ : s.Furthers c Nowhere s₁)
    (hf : s.frame? f = some frame) (h : Entered s₁ s' f inner name) :
    Entered s s' f inner name := by
  obtain ⟨frame', calls, hf', hp, hk, hcalls, hscope⟩ := h.frame
  rw [callStack_of_alike hs.ordered hs₁.ordered h₁.frame hf] at hcalls
  exact ⟨frame', calls, hf', hp, hk, hcalls, Nat.le_trans h₁.scopes hscope⟩

theorem expandBlock_safely (hs : s.Proper c) (hf : s.frame? f = some frame) {entry : BlockEntry}
    (he : c.HasBlock entry.block) (hscope : entry.scope.index < s.registry.scopes.size)
    (tag : Option String) (location : Location) :
    Safely c (expandBlock f entry tag location) s fun inner s' =>
      Entered s s' f inner entry.block.name := by
  unfold expandBlock
  refine .get_bind ?_
  dsimp only
  rcases hn : s.registry.nextName (s.scopeOf f) (tag.getD (scopeName entry.block.tag))
    tag.isNone with cause | ⟨name, r⟩
  · exact .fail_bind hs id
  have hr : Registry.Names c s.registry r := .nextName hn
  obtain ⟨hs₁, h₁⟩ := hs.names hr
  dsimp only
  rw [pure_bind]
  refine .set_bind ⟨hs₁, h₁⟩ ?_
  cases hc : (s.callStack f).add? entry.block.name location with
  | error cycle => exact .fail_bind hs₁ id
  | ok calls =>
    have hcalls : calls.trail.entries =
        (s.callStack f).trail.entries ++ [entry.block.name] := by
      unfold CallStack.add? Trail.add? at hc
      split at hc
      next trail htrail =>
        cases hc
        split at htrail <;> cases htrail
        rfl
      · cases hc
    dsimp only
    rw [pure_bind, documentOf_eq hf, scopeOf_eq hf]
    set opened : Frame := ⟨some f, frame.document, ⟨r.scopes.size⟩, .block calls⟩ with hopened
    have hparent : ∀ p, opened.parent = some p → p.index < s.frames.size := by
      rintro p ⟨⟩
      exact index_lt_of_frame? hf
    have hsame : callStack { s with registry := r } f = s.callStack f :=
      callStack_congr (by rfl) f
    have hadmits : Admits c { s with registry := r } opened :=
      ⟨f, entry.block.name, rfl, he.name_mem, hsame ▸ hcalls⟩
    have horigin : ∀ o, some entry.scope = some o → o.index < r.scopes.size := by
      rintro o ⟨⟩
      exact hr.size ▸ hscope
    obtain ⟨hs₂, h₂⟩ := hs₁.openScope name frame.document (some frame.scope) _ horigin
      (show opened.scope = ⟨r.scopes.size⟩ from rfl) hparent hadmits (hs₁.documented f frame hf)
    refine Concludes.modify_bind ?_
    cases ha : (r.newScope name frame.document (some frame.scope) (some entry.scope)).2.addChild
      frame.scope name (r.newScope name frame.document (some frame.scope) (some entry.scope)).1 with
    | error cause => exact ⟨not_false, hs.toFramed.of_frames rfl⟩
    | ok r' =>
      obtain ⟨hs₃, h₃⟩ := hs₂.names (.addChild ha)
      have hinner : frame? { s with registry := r', frames := s.frames.push opened }
          s.freshFrame = some opened :=
        (frame?_push (s := s) opened s.freshFrame).trans (if_pos rfl)
      refine Concludes.modify_bind (Concludes.pushFrame_bind ?_)
      refine Safely.concludes_bind (registerBlocks_safely hs₃ hinner fun b hb => he.inner hb) ?_
      intro _ s₄ hs₄ h₄ _
      refine .of_ok rfl hs₄.toFramed ⟨hs₄, (h₂.trans h₃).trans h₄, ?_⟩
      exact Entered.trans ⟨opened, calls, hinner, rfl, rfl, hcalls, Nat.le_of_eq hr.size.symm⟩ h₄

theorem bindParameters_safely {caller inner : FrameId} (hs : s.Proper c) {fr : Frame}
    (hc : s.frame? caller = some frame) (hi : s.frame? inner = some fr) (location : Location)
    {entry : BlockEntry} {arguments : Table InlineText} (hlt : frame.scope.index < fr.scope.index)
    (hscope : entry.scope.index < fr.scope.index) (hd : Defaults entry.scope entry.defaults s)
    (ha : ∀ name text, arguments.lookup name = some text → c.HasText text) :
    Safely c (bindParameters caller inner location entry arguments) s fun _ _ => True := by
  refine Safely.forM (J := fun _ _ => True) hs (fun pre p post s₁ _ hs₁ h₁ _ => ?_) trivial
  obtain ⟨frame₁, hc₁, ha₁⟩ := h₁.frame caller frame hc
  have hset : ∀ v s₂, s₂.Proper c → s₁.Furthers c Nowhere s₂ →
      s₂.BoundIn v (·.index < fr.scope.index) →
      Safely c (setValue inner p.name v) s₂ fun _ _ => True := by
    intro v s₂ hs₂ h₂ hv
    rw [← (h₁.trans h₂).scopeOf_eq hi] at hv
    exact .of_ok rfl (hs₂.setValue p.name hv) trivial
  dsimp only
  split
  next text h =>
    refine (addValue_safely hs₁ (ha _ text h) hc₁).bind fun v s₂ hs₂ h₂ hv => ?_
    obtain ⟨binding, g, hb, hg, hgs⟩ := hv
    refine hset v s₂ hs₂ h₂ ⟨binding, g, hb, hg, ?_⟩
    rw [hgs, ha₁.2.2.1]
    exact hlt
  next v h hdefault =>
    obtain ⟨binding, g, hb, hg, hgs⟩ := h₁.boundIn (hd _ v hdefault)
    refine hset v s₁ hs₁ (.refl s₁) ⟨binding, g, hb, hg, ?_⟩
    rw [hgs]
    exact hscope
  · exact .fail_bind hs₁ id

theorem expansionTag_safely (hs : s.Proper c) (hf : s.frame? f = some frame) (location : Location)
    (tag : Option String) : Safely c (expansionTag f location tag) s fun _ _ => True := by
  cases tag with
  | none => exact .pure hs trivial
  | some tag =>
    refine Safely.bind (P := fun _ _ => True) ?_ fun _ _ hs' _ _ => .pure hs' trivial
    exact (evaluateTag_safely hs hf location tag).bind fun _ _ hs' _ _ => .pure hs' trivial

/-- Opens an expansion of a block that was found. -/
def enterBlock (f : FrameId) (location : Location) (entry : BlockEntry) (tag : Option String)
    (arguments : Table InlineText) : Run (FrameId × List Node) := do
  match arguments.keys.find? fun name => !entry.block.parameters.any (·.name = name) with
  | some name => fail location (.unknownParameter entry.block.name name)
  | none => pure ()
  let tag ← expansionTag f location tag
  let inner ← expandBlock f entry tag location
  bindParameters f inner location entry arguments
  return (inner, entry.block.body)

theorem enterBlock_safely (hs : s.Proper c) (hf : s.frame? f = some frame) (location : Location)
    {b : BlockId} {entry : BlockEntry} (hb : s.registry.block? b = some entry)
    (tag : Option String) {arguments : Table InlineText}
    (ha : ∀ name text, (name, text) ∈ arguments → c.HasText text) :
    Safely c (enterBlock f location entry tag arguments) s fun result s' =>
      result.2 = entry.block.body ∧ Entered s s' f result.1 entry.block.name := by
  obtain ⟨hblock, hscope⟩ := hs.registry.block b entry hb
  unfold enterBlock
  cases arguments.keys.find? fun name => !entry.block.parameters.any (·.name = name) with
  | some name => exact .fail_bind hs id
  | none =>
    dsimp only
    refine (expansionTag_safely hs hf location tag).bind fun tag s₁ hs₁ h₁ _ => ?_
    obtain ⟨frame₁, hf₁, ha₁⟩ := h₁.frame f frame hf
    have hscope₁ := Nat.lt_of_lt_of_le hscope h₁.scopes
    refine (expandBlock_safely hs₁ hf₁ hblock hscope₁ tag location).bind
      fun inner s₂ hs₂ h₂ hentered => ?_
    obtain ⟨fr, calls, hi, -, -, -, hnew⟩ := hentered.frame
    obtain ⟨frame₂, hf₂, ha₂⟩ := h₂.frame f frame₁ hf₁
    have hlt : frame₂.scope.index < fr.scope.index := by
      have := hs₁.scope_lt f frame₁ hf₁
      rw [ha₂.2.2.1]
      omega
    refine (bindParameters_safely hs₂ hf₂ hi location hlt (by omega)
      (fun name v hv => (h₁.trans h₂).boundIn (hs.default b entry hb name v hv))
      fun name text h => ha name text (Table.mem_of_lookup h)).bind fun _ s₃ hs₃ h₃ _ => ?_
    exact .pure hs₃ ⟨rfl, (hentered.of_furthers hs hs₁ h₁ hf).trans h₃⟩

theorem openExpansion_of_blockFor? {location : Location} {block : String} {tag : Option String}
    {arguments : Table InlineText} {entry : BlockEntry} (h : s.blockFor? f block = some entry) :
    openExpansion f location block tag arguments s =
      enterBlock f location entry tag arguments s := by
  obtain ⟨link, hlink, hentry⟩ := Option.bind_eq_some_iff.1 h
  have hread : readLink f location block s = .ok link s := by
    unfold linkFor? at hlink
    unfold readLink
    cases hwritten : Link.read? true block with
    | error cause =>
      rw [hwritten] at hlink
      cases hlink
    | ok written =>
      rw [hwritten] at hlink
      change (written.abs? (s.documentOf f) false).toOption = some link at hlink
      cases habs : written.abs? (s.documentOf f) false with
      | error cause =>
        rw [habs] at hlink
        cases hlink
      | ok link' =>
        rw [habs] at hlink
        cases hlink
        refine (bind_of_ok rfl).trans ((bind_of_ok rfl).trans ?_)
        rw [habs]
        rfl
  refine (bind_of_ok hread).trans ((bind_of_ok rfl).trans ?_)
  rw [hentry]
  rfl

/-- Opening an expansion finds a block and enters that. -/
theorem openExpansion_safely (hs : s.Proper c) (hf : s.frame? f = some frame)
    (location : Location) (block : String) (tag : Option String) {arguments : Table InlineText}
    (ha : ∀ name text, (name, text) ∈ arguments → c.HasText text) :
    Safely c (openExpansion f location block tag arguments) s fun result s' => ∃ entry,
      s.blockFor? f block = some entry ∧ c.HasBlock entry.block ∧ result.2 = entry.block.body ∧
        Entered s s' f result.1 entry.block.name := by
  unfold openExpansion
  refine (readLink_safely hs f location block).bind ?_
  rintro link s' hs' - ⟨rfl, hlink⟩
  refine .get_bind ((Safely.orFail (P := fun entry s => s = s' ∧
    (s.registry.lookupBlock (s.scopeOf f) link).bind s.registry.block? = some entry) hs' id
    fun entry h => ⟨rfl, h⟩).bind ?_)
  rintro entry s₁ hs₁ - ⟨rfl, hentry⟩
  obtain ⟨b, -, hb⟩ := Option.bind_eq_some_iff.1 hentry
  refine (enterBlock_safely hs₁ hf location hb tag ha).mono fun result s₂ _ ⟨hbody, hentered⟩ => ?_
  refine ⟨entry, ?_, (hs₁.registry.block b entry hb).1, hbody, hentered⟩
  rw [blockFor?, hlink]
  exact hentry

end Run

end Folio
