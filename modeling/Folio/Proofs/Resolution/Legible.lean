import Folio.Proofs.Resolution.Claiming
import Folio.Proofs.Resolution.Equipped
import Folio.Proofs.Resolution.Finding

/-!
# Texts that can be read

Every phase goes through the parts of a text and on to the values in it. A text is *legible*
(`Resolution.Legible`) if all of these are registered, and the values lie in one another less deep
than a given number. What registration leaves is legible, since a value is bound in an earlier scope
than the one it stands in (`Equipped.legible`), and it stays so, whatever else is found
(`Legible.recalls`).

No phase fails internally on a legible text: neither when it looks for the targets of references
(`labelTextWithin_ends`), nor when it looks through the values again (`checkTextWithin_ends`), nor
when it writes the text out (`Legible.external`).
-/

namespace Folio

open Resolution

/-! ## States that are found again -/

/-- A state without the target of a reference. -/
def NodeState.untargeted : NodeState → NodeState
  | .reference link _ => .reference link none
  | state => state

/-- A state without the text of a term. -/
def NodeState.untold : NodeState → NodeState
  | .term _ => .term none
  | state => state

/-- A state without what is found after registration. -/
def NodeState.core (state : NodeState) : NodeState := state.untargeted.untold

theorem NodeState.core_eq_of_untargeted {st st' : NodeState} (h : st'.untargeted = st.untargeted) :
    st'.core = st.core := congrArg untold h

theorem NodeState.core_eq_of_untold {st st' : NodeState} (h : st'.untold = st.untold) :
    st'.core = st.core := by
  cases st <;> cases st' <;> simp_all [core, untargeted, untold]

namespace Resolution

/-- States that are there stay as far as `g` shows them. -/
def Recalls (g : NodeState → NodeState) (s s' : Resolution) : Prop :=
  ∀ f key st, s.state? f key = some st → ∃ st', s'.state? f key = some st' ∧ g st' = g st

namespace Recalls

variable {g g' : NodeState → NodeState} {s s' s'' : Resolution}

theorem refl (s : Resolution) : Recalls g s s := fun _ _ st h => ⟨st, h, rfl⟩

theorem trans (h : Recalls g s s') (h' : Recalls g s' s'') : Recalls g s s'' := by
  intro f key st hst
  obtain ⟨st', hst', heq⟩ := h f key st hst
  obtain ⟨st'', hst'', heq'⟩ := h' f key st' hst'
  exact ⟨st'', hst'', heq'.trans heq⟩

theorem mono (h : Recalls g s s') (hg : ∀ st st', g st' = g st → g' st' = g' st) :
    Recalls g' s s' := by
  intro f key st hst
  obtain ⟨st', hst', heq⟩ := h f key st hst
  exact ⟨st', hst', hg st st' heq⟩

theorem of_states (hs : s'.states = s.states) (hf : ∀ f, s'.scopeOf f = s.scopeOf f) :
    Recalls g s s' := by
  intro f key st hst
  refine ⟨st, ?_, rfl⟩
  rw [state?, stateIn?, hs, hf]
  exact hst

/-- A state is set to one that shows the same. -/
theorem setState {f : FrameId} {key : NodeKey} {old st : NodeState}
    (h : s.state? f key = some old) (hg : g st = g old) : Recalls g s (s.setState f key st) := by
  intro f' key' st' hst'
  change ∃ st'', (s.setState f key st).stateIn? (s.scopeOf f') key' = some st'' ∧ _
  rw [stateIn?_setState]
  split
  next heq =>
    rw [state?, heq.1, heq.2] at hst'
    cases h.symm.trans hst'
    exact ⟨st, rfl, hg⟩
  next => exact ⟨st', hst', rfl⟩

end Recalls

/-! ## Legible texts -/

/-- The references and the values of a text are registered, and the values lie in one another less
deep than a number. -/
def Legible (s : Resolution) : Nat → FrameId → InlineText → Prop
  | 0, _, _ => False
  | n + 1, f, t =>
    (∀ key aspect written, .reference key aspect written ∈ t.parts →
      ∃ link target, s.state? f key = some (.reference link target)) ∧
    ∀ key name, .value key name ∈ t.parts →
      ∃ inner body, s.state? f key = some (.value inner body) ∧ Legible s n inner body

theorem Legible.recalls {s s' : Resolution} (h : Recalls NodeState.core s s') {n : Nat}
    {f : FrameId} {t : InlineText} (ht : s.Legible n f t) : s'.Legible n f t := by
  induction n generalizing f t with
  | zero => exact ht
  | succ n ih =>
    refine ⟨fun key aspect written hp => ?_, fun key name hp => ?_⟩
    · obtain ⟨link, target, hst⟩ := ht.1 key aspect written hp
      obtain ⟨st', hst', heq⟩ := h f key _ hst
      cases st' <;> simp [NodeState.core, NodeState.untargeted, NodeState.untold] at heq
      exact ⟨_, _, hst'⟩
    · obtain ⟨inner, body, hst, hbody⟩ := ht.2 key name hp
      obtain ⟨st', hst', heq⟩ := h f key _ hst
      cases st' <;> simp [NodeState.core, NodeState.untargeted, NodeState.untold] at heq
      obtain ⟨rfl, rfl⟩ := heq
      exact ⟨_, _, hst', ih hbody⟩

/-- What registration leaves is legible, since values lie in earlier scopes. -/
theorem Equipped.legible {c : Collection} {vs : List Visit} {s : Resolution} (hc : c.Described)
    (h : s.Equipped c vs) {f : FrameId} {frame : Frame} (hf : s.frame? f = some frame)
    {t : InlineText} (ht : c.HasText t) (hheld : s.Held frame.scope t) {n : Nat}
    (hn : frame.scope.index < n) : s.Legible n f t := by
  induction n generalizing f frame t with
  | zero => omega
  | succ n ih =>
    have hstate : ∀ p ∈ t.parts, ∀ k, p.key? = some k →
        ∃ st, s.state? f k = some st ∧ c.Suits k st := by
      intro p hp k hk
      obtain ⟨st, hst⟩ := Option.isSome_iff_exists.1 (hheld p hp k hk)
      refine ⟨st, ?_, (h.proper.state _ _ _ hst).1⟩
      rw [state?, scopeOf_eq hf, hst]
    -- the key of a part is the key of no other part, and of no node
    refine ⟨fun key aspect written hp => ?_, fun key name hp => ?_⟩
    · obtain ⟨st, hst, hsuits⟩ := hstate _ hp key rfl
      have hnot := hc.part_not_key ht hp (k := key) rfl
      cases st with
      | reference link target => exact ⟨link, target, hst⟩
      | value inner body =>
        obtain ⟨t', ht', name, hp'⟩ := hsuits
        cases hc.part_unique ht ht' hp hp' (k := key) rfl rfl
      | term text => exact (hnot hsuits.1).elim
      | labeled | embedding | expansion | probe => exact (hnot hsuits).elim
    · obtain ⟨st, hst, hsuits⟩ := hstate _ hp key rfl
      have hnot := hc.part_not_key ht hp (k := key) rfl
      cases st with
      | value inner body =>
        have hst' : s.stateIn? frame.scope key = some (.value inner body) := by
          rw [← scopeOf_eq hf]
          exact hst
        obtain ⟨frame', hf', hlt, ht', hheld'⟩ := h.complete _ _ _ _ hst'
        exact ⟨inner, body, hst, ih hf' ht' hheld' (by omega)⟩
      | reference link target =>
        obtain ⟨t', ht', aspect, written, hp'⟩ := hsuits
        cases hc.part_unique ht ht' hp hp' (k := key) rfl rfl
      | term text => exact (hnot hsuits.1).elim
      | labeled | embedding | expansion | probe => exact (hnot hsuits).elim

/-- The number of frames bounds how deep values lie in values. -/
theorem Equipped.legible_size {c : Collection} {vs : List Visit} {s : Resolution} (hc : c.Described)
    (h : s.Equipped c vs) {f : FrameId} {frame : Frame} (hf : s.frame? f = some frame)
    {t : InlineText} (ht : c.HasText t) (hheld : s.Held frame.scope t) :
    s.Legible (s.frames.size + 1) f t := by
  refine h.legible hc hf ht hheld ?_
  have hlt := h.proper.scope_lt f frame hf
  have hle := h.proper.scopes_le
  omega

end Resolution

/-! ## Going through texts -/

namespace Run

variable {s : Resolution} {f : FrameId} {t : InlineText} {n : Nat}

theorem valueState_iff {R : ResolveError → Prop} {location : Location} {key : NodeKey}
    {inner : FrameId} {body : InlineText} (h : s.state? f key = some (.value inner body))
    {Q : FrameId × InlineText → Resolution → Prop} :
    Ends R (valueState f location key) s Q ↔ Q (inner, body) s := by
  unfold valueState
  rw [Ends.bind_iff, Ends.get_iff, h]
  exact Iff.rfl

theorem labelTextWithin_ends (h : s.Legible n f t) :
    Ends ResolveError.External (labelTextWithin n f t) s fun _ s' =>
      Recalls NodeState.untargeted s s' := by
  induction n generalizing f t s with
  | zero => exact h.elim
  | succ n ih =>
    unfold labelTextWithin
    refine Ends.forM (I := fun s' => Recalls NodeState.untargeted s s') (fun p hp s₁ h₁ => ?_)
      (.refl s)
    have h := h.recalls (h₁.mono fun _ _ => NodeState.core_eq_of_untargeted)
    rcases p with text | ⟨key, aspect, written⟩ | ⟨key, name⟩ | name | tag
    · exact h₁
    · obtain ⟨link, target, hst⟩ := h.1 key aspect written hp
      dsimp only
      rw [Ends.bind_iff, Ends.get_iff, hst]
      dsimp only
      rw [Ends.bind_iff, ends_orFail_iff]
      exact ⟨fun target' _ => h₁.trans (.setState hst rfl), fun _ => id⟩
    · obtain ⟨inner, body, hst, hbody⟩ := h.2 key name hp
      dsimp only
      rw [Ends.bind_iff, valueState_iff hst]
      exact (ih hbody).mono fun _ _ h => h₁.trans h
    · exact h₁
    · exact h₁

theorem labelText_ends (h : s.Legible (s.frames.size + 1) f t) :
    Ends ResolveError.External (labelText f t) s fun _ s' => s.Noted s' ∧
      Recalls NodeState.untargeted s s' := by
  unfold labelText
  rw [Ends.bind_iff, Ends.get_iff]
  exact (labelTextWithin_ends h).inspect (labelTextWithin_spec _ f t)

theorem checkTextWithin_ends {R : ResolveError → Prop} (h : s.Legible n f t) :
    Ends R (checkTextWithin n f t) s fun _ s' => s' = s := by
  induction n generalizing f t with
  | zero => exact h.elim
  | succ n ih =>
    unfold checkTextWithin
    refine Ends.forM (I := (· = s)) (fun p hp s₁ h₁ => ?_) rfl
    subst h₁
    cases p with
    | value key name =>
      obtain ⟨inner, body, hst, hbody⟩ := h.2 key name hp
      dsimp only
      rw [Ends.bind_iff, valueState_iff hst]
      exact ih hbody
    | _ => rfl

/-- Looking through the values of a legible text does nothing. -/
theorem checkText_iff {R : ResolveError → Prop} (h : s.Legible (s.frames.size + 1) f t)
    {Q : Unit → Resolution → Prop} : Ends R (checkText f t) s Q ↔ Q () s := by
  have hok : checkText f t s = .ok () s := by
    have := checkTextWithin_ends (R := fun _ => False) h
    change checkTextWithin (s.frames.size + 1) f t s = .ok () s
    unfold Ends at this
    cases hm : checkTextWithin (s.frames.size + 1) f t s with
    | ok _ s' => simpa [hm] using this
    | error e s' => simp [hm] at this
  unfold Ends
  rw [hok]

end Run

/-! ## Writing texts out -/

/-- A loop fails as one of its rounds does. -/
theorem exists_of_mapM_error {α β ε : Type} {f : α → Except ε β} {xs : List α} {e : ε}
    (h : xs.mapM f = .error e) : ∃ x ∈ xs, f x = .error e := by
  induction xs with
  | nil => cases h
  | cons x xs ih =>
    rw [List.mapM_cons] at h
    cases hx : f x with
    | error e' =>
      rw [hx] at h
      cases h
      exact ⟨x, by simp, hx⟩
    | ok y =>
      rw [hx] at h
      change (xs.mapM f >>= fun ys => pure (y :: ys)) = _ at h
      cases hxs : xs.mapM f with
      | error e' =>
        rw [hxs] at h
        cases h
        obtain ⟨x', hmem, hx'⟩ := ih hxs
        exact ⟨x', List.mem_cons_of_mem _ hmem, hx'⟩
      | ok ys =>
        rw [hxs] at h
        cases h

namespace Resolution

variable {s : Resolution} {f : FrameId} {t : InlineText} {n : Nat}

/-- What a legible text cannot show is not known by now, or cannot be found. -/
theorem Legible.external (h : s.Legible n f t) {e : ResolveError}
    (he : s.renderTextWithin n f t = .error e) : e.External := by
  induction n generalizing f t with
  | zero => exact h.elim
  | succ n ih =>
    have hmap : t.parts.mapM (s.renderPart (s.renderTextWithin n) f t.location) = .error e := by
      unfold renderTextWithin at he
      cases hmap : t.parts.mapM (s.renderPart (s.renderTextWithin n) f t.location) with
      | ok texts =>
        rw [hmap] at he
        cases he
      | error e' =>
        rw [hmap] at he
        cases he
        rfl
    obtain ⟨p, hp, hpe⟩ := exists_of_mapM_error hmap
    rcases p with text | ⟨key, aspect, written⟩ | ⟨key, name⟩ | name | tag
    · cases hpe
    · obtain ⟨link, target, hst⟩ := h.1 key aspect written hp
      unfold renderPart at hpe
      simp only [hst] at hpe
      split at hpe
      · cases hpe
        exact id
      · split at hpe <;> cases hpe
        exact id
    · obtain ⟨inner, body, hst, hbody⟩ := h.2 key name hp
      unfold renderPart at hpe
      simp only [hst] at hpe
      exact ih hbody hpe
    · cases hpe
    · unfold renderPart at hpe
      dsimp only at hpe
      split at hpe
      · cases hpe
        exact id
      · split at hpe <;> cases hpe
        exact id

end Resolution

end Folio
