import Folio.Proofs.Resolution.Nesting
import Mathlib.Tactic.Set

/-!
# Proper resolutions

Some errors are no fault of a document: they say that the phases do not agree with each other.
`ResolveError.Internal` are these, together with the bound on depth that should never be reached.

`Resolution.Proper` is what registration keeps so that none of them can occur. Frames lie in one
another as they should, values are bound in scopes before the one that knows them, ids are
registered together with their anchors, and a state is of the sort that its key stands for.
`Resolution.Furthers` is what one step of registration leaves alone: states stay there, those of
nodes do not change, and values that are new are complete.
-/

namespace Folio

open Resolution

/-! ## Internal errors -/

/-- Is a rule broken that the use of ranges by documents cannot break? -/
def NumberingError.Internal : NumberingError → Prop
  | finalized _ => False
  | _ => True

/-- Is a cause about the phases, and not about a document? -/
def Cause.Internal : Cause → Prop
  | numbering cause => cause.Internal
  | missingNumberRange _ => True
  | missingNodeContext => True
  | duplicateId .. => True
  | tooDeep => True
  | _ => False

/-- Is an error about the phases, and not about a document? -/
def ResolveError.Internal : ResolveError → Prop
  | located _ cause => cause.Internal
  | _ => False

/-- An error that documents can be blamed for. -/
def ResolveError.External (e : ResolveError) : Prop := ¬e.Internal

/-! ## Proper registries -/

/-- Ids are registered together with their texts as anchors. -/
def Scope.Anchored (s : Scope) : Prop :=
  ∀ id e, s.ids.lookup id = some e → (s.anchors.lookup id.text).isSome

/-- Static parents come earlier, ids are anchored, values and blocks are what was written, and no
title is found yet. -/
structure Registry.Proper (c : Collection) (r : Registry) : Prop where
  origin : ∀ σ sc o, r.scope? σ = some sc → sc.origin = some o → o.index < σ.index
  anchored : ∀ σ sc, r.scope? σ = some sc → sc.Anchored
  text : ∀ v binding, r.value? v = some binding → c.HasText binding.body
  block : ∀ b entry, r.block? b = some entry →
    c.HasBlock entry.block ∧ entry.scope.index < r.scopes.size
  untitled : ∀ e entry, r.entryAt? e = some entry → entry.title = none

/-- Names are registered in scopes and in the index; the scopes are otherwise what they were. -/
structure Registry.Names (c : Collection) (r r' : Registry) : Prop where
  proper : r.Proper c → r'.Proper c
  size : r'.scopes.size = r.scopes.size
  scope : ∀ σ sc', r'.scope? σ = some sc' →
    ∃ sc, r.scope? σ = some sc ∧ sc'.origin = sc.origin ∧ sc'.values = sc.values
  values : r'.values = r.values
  blocks : r'.blocks = r.blocks

namespace Registry

variable {c : Collection} {r r' r'' : Registry}

theorem scope?_modifyScope (σ : ScopeId) (f : Scope → Scope) (τ : ScopeId) :
    (r.modifyScope σ f).scope? τ = if τ = σ then (r.scope? τ).map f else r.scope? τ := by
  obtain ⟨σ⟩ := σ
  obtain ⟨τ⟩ := τ
  simp only [scope?, modifyScope, Array.getElem?_modify, ScopeId.mk.injEq]
  by_cases h : τ = σ
  · simp [h]
  · simp [h, Ne.symm h]

namespace Names

theorem refl (r : Registry) : Names c r r where
  proper h := h
  size := rfl
  scope _ sc h := ⟨sc, h, rfl, rfl⟩
  values := rfl
  blocks := rfl

theorem trans (h : Names c r r') (h' : Names c r' r'') : Names c r r'' where
  proper hr := h'.proper (h.proper hr)
  size := h'.size.trans h.size
  scope σ sc'' hsc := by
    obtain ⟨sc', hsc', ho', hv'⟩ := h'.scope σ sc'' hsc
    obtain ⟨sc, hsc, ho, hv⟩ := h.scope σ sc' hsc'
    exact ⟨sc, hsc, ho'.trans ho, hv'.trans hv⟩
  values := h'.values.trans h.values
  blocks := h'.blocks.trans h.blocks

/-- A scope changes, but neither its parent nor its values, and its ids stay anchored. -/
theorem modifyScope (r : Registry) (σ : ScopeId) {f : Scope → Scope}
    (ho : ∀ sc, (f sc).origin = sc.origin) (hv : ∀ sc, (f sc).values = sc.values)
    (ha : ∀ sc, sc.Anchored → (f sc).Anchored) : Names c r (r.modifyScope σ f) := by
  have hscope : ∀ τ sc', (r.modifyScope σ f).scope? τ = some sc' →
      ∃ sc, r.scope? τ = some sc ∧ (sc' = sc ∨ sc' = f sc) := by
    intro τ sc' h
    rw [scope?_modifyScope] at h
    split at h
    · obtain ⟨sc, hsc, rfl⟩ := Option.map_eq_some_iff.1 h
      exact ⟨sc, hsc, .inr rfl⟩
    · exact ⟨sc', h, .inl rfl⟩
  have hsize : (r.modifyScope σ f).scopes.size = r.scopes.size := by simp [Registry.modifyScope]
  refine ⟨fun h => { h with origin := ?_, anchored := ?_, block := ?_ }, hsize, ?_, rfl, rfl⟩
  · intro τ sc' o hτ hso
    obtain ⟨sc, hsc, rfl | rfl⟩ := hscope τ sc' hτ
    · exact h.origin τ _ o hsc hso
    · exact h.origin τ sc o hsc (ho sc ▸ hso)
  · intro τ sc' hτ
    obtain ⟨sc, hsc, rfl | rfl⟩ := hscope τ sc' hτ
    · exact h.anchored τ _ hsc
    · exact ha sc (h.anchored τ sc hsc)
  · intro b entry hb
    rw [hsize]
    exact h.block b entry hb
  · intro τ sc' hτ
    obtain ⟨sc, hsc, rfl | rfl⟩ := hscope τ sc' hτ
    · exact ⟨_, hsc, rfl, rfl⟩
    · exact ⟨sc, hsc, ho sc, hv sc⟩

theorem modifyIndex (r : Registry) (index : GlobalIndex) : Names c r { r with index } where
  proper h := { h with }
  size := rfl
  scope _ sc h := ⟨sc, h, rfl, rfl⟩
  values := rfl
  blocks := rfl

theorem pushEntry (r : Registry) {e : Entry} (he : e.title = none) :
    Names c r { r with entries := r.entries.push e } where
  proper h := { h with
    untitled := fun i entry hi => by
      change (r.entries.push e)[i.index]? = some entry at hi
      rw [Array.getElem?_push] at hi
      split at hi
      · cases hi
        exact he
      · exact h.untitled i entry hi }
  size := rfl
  scope _ sc h := ⟨sc, h, rfl, rfl⟩
  values := rfl
  blocks := rfl

theorem modifyEntry (r : Registry) (e : EntryId) {f : Entry → Entry}
    (hf : ∀ entry, (f entry).title = entry.title) : Names c r (r.modifyEntry e f) where
  proper h := { h with
    untitled := fun i entry hi => by
      rw [entryAt?_modifyEntry] at hi
      split at hi
      · obtain ⟨entry', hi', rfl⟩ := Option.map_eq_some_iff.1 hi
        rw [hf]
        exact h.untitled i entry' hi'
      · exact h.untitled i entry hi }
  size := by simp [Registry.modifyEntry]
  scope _ sc h := ⟨sc, h, rfl, rfl⟩
  values := rfl
  blocks := rfl

theorem nextName {σ : ScopeId} {name n : String} {extend : Bool}
    (h : r.nextName σ name extend = .ok (n, r')) : Names c r r' := by
  unfold Registry.nextName at h
  dsimp only at h
  split at h <;> cases h
  exact modifyScope r σ (fun _ => rfl) (fun _ => rfl) fun _ ha => ha

theorem addChild {σ child : ScopeId} {name : String} (h : r.addChild σ name child = .ok r') :
    Names c r r' := by
  unfold Registry.addChild at h
  split at h <;> cases h
  exact modifyScope r σ (fun _ => rfl) (fun _ => rfl) fun _ ha => ha

end Names

/-- Scopes may be new, with no values yet. Values and blocks are what they were. -/
structure Opens (r r' : Registry) : Prop where
  size : r.scopes.size ≤ r'.scopes.size
  scope : ∀ σ sc, r'.scope? σ = some sc → r.scope? σ = some sc ∨ sc.values = []
  values : r'.values = r.values
  blocks : r'.blocks = r.blocks

theorem Opens.refl (r : Registry) : Opens r r where
  size := Nat.le_refl _
  scope _ _ h := .inl h
  values := rfl
  blocks := rfl

section

variable (name document : String) (parent origin : Option ScopeId)

theorem size_newScope : (r.newScope name document parent origin).2.scopes.size =
    r.scopes.size + 1 := by
  simp [newScope]

theorem newScope_cases {σ : ScopeId} {sc : Scope}
    (h : (r.newScope name document parent origin).2.scope? σ = some sc) : r.scope? σ = some sc ∨
      (σ = ⟨r.scopes.size⟩ ∧ sc.origin = origin ∧ sc.ids = [] ∧ sc.values = []) := by
  obtain ⟨σ⟩ := σ
  simp only [scope?, newScope, Array.getElem?_push] at h
  split at h
  next heq => cases h; exact .inr ⟨by rw [heq], rfl, rfl, rfl⟩
  · exact .inl h

theorem Opens.newScope (r : Registry) :
    Opens r (r.newScope name document parent origin).2 where
  size := by
    rw [size_newScope]
    omega
  scope σ sc h := (newScope_cases name document parent origin h).imp_right fun h => h.2.2.2
  values := rfl
  blocks := rfl

theorem Proper.newScope (h : r.Proper c)
    (ho : ∀ o, origin = some o → o.index < r.scopes.size) :
    (r.newScope name document parent origin).2.Proper c where
  origin σ sc o hσ hso := by
    obtain hσ | ⟨rfl, hso', -⟩ := newScope_cases name document parent origin hσ
    · exact h.origin σ sc o hσ hso
    · exact ho o (hso'.symm.trans hso)
  anchored σ sc hσ := by
    obtain hσ | ⟨-, -, hids, -⟩ := newScope_cases name document parent origin hσ
    · exact h.anchored σ sc hσ
    · intro id e hid
      simp [hids] at hid
  text := h.text
  block b entry hb := by
    rw [size_newScope]
    exact ⟨(h.block b entry hb).1, Nat.lt_succ_of_lt (h.block b entry hb).2⟩
  untitled := h.untitled

end

/-- Static parents do not come later. -/
theorem Proper.index_le_of_mem_staticChain (h : r.Proper c) {σ τ : ScopeId}
    (hτ : τ ∈ r.staticChain σ) : τ.index ≤ σ.index := by
  unfold staticChain at hτ
  generalize r.scopes.size = fuel at hτ
  induction fuel generalizing σ with
  | zero => simp [chain] at hτ
  | succ fuel ih =>
    unfold chain at hτ
    rcases List.mem_cons.1 hτ with rfl | hτ
    · exact Nat.le_refl _
    · cases hsc : r.scope? σ with
      | none =>
        rw [hsc] at hτ
        cases fuel <;> simp [chain] at hτ
      | some sc =>
        cases ho : sc.origin with
        | none =>
          rw [hsc, Option.bind_some, ho] at hτ
          cases fuel <;> simp [chain] at hτ
        | some o =>
          rw [hsc, Option.bind_some, ho] at hτ
          have hlt := h.origin σ sc o hsc ho
          have hle := ih hτ
          omega

end Registry

/-! ## Proper resolutions -/

/-- A state is of the sort that the key stands for. -/
def Collection.Suits (c : Collection) (k : NodeKey) : NodeState → Prop
  | .reference .. => ∃ t, c.HasText t ∧ ∃ aspect link, .reference k aspect link ∈ t.parts
  | .value .. => ∃ t, c.HasText t ∧ ∃ name, .value k name ∈ t.parts
  | .term text => c.stock.key k ∧ text = none
  | _ => c.stock.key k

namespace Resolution

/-- A value is bound to a frame whose scope meets `P`. -/
def BoundIn (s : Resolution) (v : ValueId) (P : ScopeId → Prop) : Prop :=
  ∃ binding frame, s.registry.value? v = some binding ∧ s.frame? binding.frame = some frame ∧
    P frame.scope

/-- The parts of a text have states in a scope. -/
def Held (s : Resolution) (σ : ScopeId) (t : InlineText) : Prop :=
  ∀ p ∈ t.parts, ∀ k, p.key? = some k → (s.stateIn? σ k).isSome

/-- A value that is known in a scope stands for a text that was written, in an earlier scope that
holds it. -/
def Complete (c : Collection) (s : Resolution) (σ : ScopeId) (inner : FrameId) (body : InlineText) :
    Prop :=
  ∃ frame, s.frame? inner = some frame ∧ frame.scope.index < σ.index ∧ c.HasText body ∧
    s.Held frame.scope body

/-- What is registered lies in order, and is what was written. -/
structure Proper (c : Collection) (s : Resolution) : Prop extends s.Framed c where
  registry : s.registry.Proper c
  scope_lt : ∀ f frame, s.frame? f = some frame → frame.scope.index < s.registry.scopes.size
  documented : ∀ f frame, s.frame? f = some frame → (s.info? frame.document).isSome
  value : ∀ σ sc name v, s.registry.scope? σ = some sc → sc.values.lookup name = some v →
    s.BoundIn v (·.index < σ.index)
  default : ∀ b entry, s.registry.block? b = some entry → ∀ name v,
    entry.defaults.lookup name = some v → s.BoundIn v (· = entry.scope)
  state : ∀ σ k st, s.stateIn? σ k = some st → c.Suits k st ∧ σ.index < s.registry.scopes.size
  scopes_le : s.registry.scopes.size ≤ s.frames.size

/-- States stay, those of nodes are set only at `T` and never change, and ranges are still asked
for. -/
structure Extends (c : Collection) (T : ScopeId → NodeKey → Prop) (s s' : Resolution) : Prop where
  options : s'.options = s.options
  frame : ∀ f frame, s.frame? f = some frame → ∃ frame', s'.frame? f = some frame' ∧
    frame.Alike frame'
  scopes : s.registry.scopes.size ≤ s'.registry.scopes.size
  values : ∀ v binding, s.registry.value? v = some binding → s'.registry.value? v = some binding
  kept : ∀ σ k, (s.stateIn? σ k).isSome → (s'.stateIn? σ k).isSome
  node : ∀ σ k st, c.stock.key k → s.stateIn? σ k = some st → s'.stateIn? σ k = some st
  touched : ∀ σ k, c.stock.key k → s'.stateIn? σ k ≠ s.stateIn? σ k → T σ k
  ranges : ∀ d info, s.info? d = some info → ∃ info', s'.info? d = some info' ∧
    info.ranges ⊆ info'.ranges

/-- Besides, values that are new are complete. -/
structure Furthers (c : Collection) (T : ScopeId → NodeKey → Prop) (s s' : Resolution) : Prop
    extends s.Extends c T s' where
  complete : ∀ σ k inner body, s'.stateIn? σ k = some (.value inner body) →
    s.stateIn? σ k = some (.value inner body) ∨ s'.Complete c σ inner body

/-- No state of a node is set. -/
abbrev Nowhere : ScopeId → NodeKey → Prop := fun _ _ => False

section

variable {c : Collection} {T T' U : ScopeId → NodeKey → Prop} {s s' s'' : Resolution}

namespace Extends

theorem scopeOf_eq (h : s.Extends c T s') {f : FrameId} {frame : Frame}
    (hf : s.frame? f = some frame) : s'.scopeOf f = frame.scope := by
  obtain ⟨frame', hf', ha⟩ := h.frame f frame hf
  rw [Resolution.scopeOf_eq hf', ha.2.2.1]

theorem held (h : s.Extends c T s') {σ : ScopeId} {t : InlineText} (ht : s.Held σ t) :
    s'.Held σ t := fun p hp k hk => h.kept σ k (ht p hp k hk)

theorem complete_of (h : s.Extends c T s') {σ : ScopeId} {inner : FrameId} {body : InlineText}
    (hc : s.Complete c σ inner body) : s'.Complete c σ inner body := by
  obtain ⟨frame, hf, hlt, ht, hh⟩ := hc
  obtain ⟨frame', hf', ha⟩ := h.frame inner frame hf
  exact ⟨frame', hf', ha.2.2.1 ▸ hlt, ht, ha.2.2.1 ▸ h.held hh⟩

theorem boundIn (h : s.Extends c T s') {v : ValueId} {P : ScopeId → Prop} (hv : s.BoundIn v P) :
    s'.BoundIn v P := by
  obtain ⟨binding, frame, hb, hf, hP⟩ := hv
  obtain ⟨frame', hf', ha⟩ := h.frame _ frame hf
  exact ⟨binding, frame', h.values v binding hb, hf', ha.2.2.1 ▸ hP⟩

theorem refl (s : Resolution) : s.Extends c Nowhere s where
  options := rfl
  frame _ frame h := ⟨frame, h, .refl frame⟩
  scopes := Nat.le_refl _
  values _ _ h := h
  kept _ _ h := h
  node _ _ _ _ h := h
  touched _ _ _ h := h rfl
  ranges _ info h := ⟨info, h, fun _ h => h⟩

theorem append (h : s.Extends c T s') (h' : s'.Extends c T' s'') (hT : ∀ σ k, T σ k → U σ k)
    (hT' : ∀ σ k, T' σ k → U σ k) : s.Extends c U s'' where
  options := h'.options.trans h.options
  frame f frame hf := by
    obtain ⟨frame', hf', ha⟩ := h.frame f frame hf
    obtain ⟨frame'', hf'', ha'⟩ := h'.frame f frame' hf'
    exact ⟨frame'', hf'', ha.trans ha'⟩
  scopes := Nat.le_trans h.scopes h'.scopes
  values v binding hv := h'.values v binding (h.values v binding hv)
  kept σ k hs := h'.kept σ k (h.kept σ k hs)
  node σ k st hk hs := h'.node σ k st hk (h.node σ k st hk hs)
  touched σ k hk hne := by
    by_cases heq : s'.stateIn? σ k = s.stateIn? σ k
    · exact hT' σ k (h'.touched σ k hk (heq ▸ hne))
    · exact hT σ k (h.touched σ k hk heq)
  ranges d info hd := by
    obtain ⟨info', hd', hr⟩ := h.ranges d info hd
    obtain ⟨info'', hd'', hr'⟩ := h'.ranges d info' hd'
    exact ⟨info'', hd'', fun _ ht => hr' (hr ht)⟩

end Extends

namespace Furthers

theorem refl (s : Resolution) : s.Furthers c Nowhere s :=
  ⟨.refl s, fun _ _ _ _ h => .inl h⟩

theorem mono (h : s.Furthers c T s') (hT : ∀ σ k, T σ k → U σ k) : s.Furthers c U s' :=
  { h with touched := fun σ k hk hne => hT σ k (h.touched σ k hk hne) }

theorem append (h : s.Furthers c T s') (h' : s'.Furthers c T' s'') (hT : ∀ σ k, T σ k → U σ k)
    (hT' : ∀ σ k, T' σ k → U σ k) : s.Furthers c U s'' where
  toExtends := h.toExtends.append h'.toExtends hT hT'
  complete σ k inner body hs := by
    refine (h'.complete σ k inner body hs).elim (fun hs => ?_) .inr
    exact (h.complete σ k inner body hs).imp_right h'.complete_of

/-- A value is set before it is complete. -/
theorem append_value (τ : ScopeId) (key : NodeKey) (h : s.Extends c Nowhere s')
    (h' : s'.Furthers c Nowhere s'')
    (hc : ∀ inner body, s'.stateIn? τ key = some (.value inner body) → s''.Complete c τ inner body)
    (hs : ∀ σ k, ¬(σ = τ ∧ k = key) → s'.stateIn? σ k = s.stateIn? σ k) :
    s.Furthers c Nowhere s'' where
  toExtends := h.append h'.toExtends (fun _ _ h => h) fun _ _ h => h
  complete σ k inner body hst := by
    refine (h'.complete σ k inner body hst).elim (fun hst => ?_) .inr
    by_cases heq : σ = τ ∧ k = key
    · obtain ⟨rfl, rfl⟩ := heq
      exact .inr (hc inner body hst)
    · exact .inl (hs σ k heq ▸ hst)

theorem trans (h : s.Furthers c T s') (h' : s'.Furthers c T s'') : s.Furthers c T s'' :=
  h.append h' (fun _ _ h => h) fun _ _ h => h

/-- A step behind that sets no state of a node. -/
theorem before (h : s.Furthers c T s') (h' : s'.Furthers c Nowhere s'') : s.Furthers c T s'' :=
  h.append h' (fun _ _ h => h) fun _ _ h => h.elim

end Furthers

end

/-! ## Steps that keep a resolution proper -/

namespace Proper

variable {c : Collection} {s : Resolution}

theorem boundIn_of_frames {s' : Resolution} {v : ValueId} {P : ScopeId → Prop}
    (hv : s.BoundIn v P) (hr : ∀ binding, s.registry.value? v = some binding →
      s'.registry.value? v = some binding)
    (hf : ∀ f frame, s.frame? f = some frame → ∃ frame', s'.frame? f = some frame' ∧
      frame.Alike frame') : s'.BoundIn v P := by
  obtain ⟨binding, frame, hb, hframe, hP⟩ := hv
  obtain ⟨frame', hframe', ha⟩ := hf _ frame hframe
  exact ⟨binding, frame', hr binding hb, hframe', ha.2.2.1 ▸ hP⟩

/-- A frame is opened, in a scope that may be new. -/
theorem pushIn (h : s.Proper c) {r : Registry} (hr : r.Proper c) (ho : s.registry.Opens r)
    (hle : r.scopes.size ≤ s.frames.size + 1) {frame : Frame}
    (hp : ∀ p, frame.parent = some p → p.index < s.frames.size)
    (hs : frame.scope.index < r.scopes.size)
    (ha : s.Admits c frame)
    (hd : (s.info? frame.document).isSome) :
    Proper c { s with registry := r, frames := s.frames.push frame } ∧
      s.Furthers c Nowhere { s with registry := r, frames := s.frames.push frame } := by
  have hpush : ∀ f, frame? { s with registry := r, frames := s.frames.push frame } f =
      if f = s.freshFrame then some frame else s.frame? f := fun f => frame?_push (s := s) frame f
  have hold : ∀ f fr, s.frame? f = some fr → ∃ fr',
      frame? { s with registry := r, frames := s.frames.push frame } f = some fr' ∧
        fr.Alike fr' :=
    fun f fr hf => ⟨fr, by rw [hpush, if_neg (freshFrame_of_frame? hf), hf], .refl fr⟩
  have hcases : ∀ f fr, frame? { s with registry := r, frames := s.frames.push frame } f =
      some fr → (f = s.freshFrame ∧ fr = frame) ∨ s.frame? f = some fr := by
    intro f fr hf
    rw [hpush] at hf
    split at hf
    next hfresh => exact .inl ⟨hfresh, by cases hf; rfl⟩
    · exact .inr hf
  have hvalue : ∀ v binding, s.registry.value? v = some binding → r.value? v = some binding := by
    intro v binding hv
    rwa [Registry.value?, ho.values]
  refine ⟨{
    toFramed := (h.toFramed.push hp ha).of_frames rfl
    registry := hr
    scope_lt := fun f fr hf => ?_
    documented := fun f fr hf => ?_
    value := fun σ sc name v hσ hv => ?_
    default := fun b entry hb name v hv => ?_
    state := fun σ k st hst => ?_
    scopes_le := by rwa [Array.size_push] },
    ⟨{ Extends.refl (c := c) s with frame := hold, scopes := ho.size, values := hvalue },
      fun _ _ _ _ h => .inl h⟩⟩
  · obtain ⟨-, rfl⟩ | hf := hcases f fr hf
    · exact hs
    · exact Nat.lt_of_lt_of_le (h.scope_lt f fr hf) ho.size
  · obtain ⟨-, rfl⟩ | hf := hcases f fr hf
    · exact hd
    · exact h.documented f fr hf
  · obtain hσ | hnil := ho.scope σ sc hσ
    · exact boundIn_of_frames (h.value σ sc name v hσ hv) (fun b hb => hvalue v b hb) hold
    · simp [hnil] at hv
  · rw [Registry.block?, ho.blocks] at hb
    exact boundIn_of_frames (h.default b entry hb name v hv) (fun b hb => hvalue v b hb) hold
  · obtain ⟨hsuits, hlt⟩ := h.state σ k st hst
    exact ⟨hsuits, Nat.lt_of_lt_of_le hlt ho.size⟩

/-- A frame is opened in a scope that is there. -/
theorem push (h : s.Proper c) {frame : Frame}
    (hp : ∀ p, frame.parent = some p → p.index < s.frames.size)
    (hs : frame.scope.index < s.registry.scopes.size)
    (ha : s.Admits c frame)
    (hd : (s.info? frame.document).isSome) :
    Proper c { s with frames := s.frames.push frame } ∧
      s.Furthers c Nowhere { s with frames := s.frames.push frame } :=
  h.pushIn h.registry (.refl _) (Nat.le_succ_of_le h.scopes_le) hp hs ha hd

/-- The ordinals of a frame change. -/
theorem modifyKind (h : s.Proper c) (f : FrameId) (kind : FrameKind → FrameKind)
    (hk : ∀ frame, s.frame? f = some frame → frame.kind.Alike (kind frame.kind)) :
    (s.modifyKind f kind).Proper c ∧ s.Furthers c Nowhere (s.modifyKind f kind) := by
  have hold : ∀ g fr, s.frame? g = some fr →
      ∃ fr', (s.modifyKind f kind).frame? g = some fr' ∧ fr.Alike fr' := by
    intro g fr hg
    rw [frame?_modifyKind, hg]
    split
    next heq => exact ⟨_, rfl, rfl, rfl, rfl, hk fr (heq ▸ hg)⟩
    · exact ⟨fr, rfl, .refl fr⟩
  have hcases : ∀ g fr', (s.modifyKind f kind).frame? g = some fr' →
      ∃ fr, s.frame? g = some fr ∧ fr.Alike fr' := by
    intro g fr' hg
    rw [frame?_modifyKind] at hg
    split at hg
    next heq =>
      obtain ⟨fr, hfr, rfl⟩ := Option.map_eq_some_iff.1 hg
      exact ⟨fr, hfr, rfl, rfl, rfl, hk fr (heq ▸ hfr)⟩
    · exact ⟨fr', hg, .refl fr'⟩
  refine ⟨{ h with
    toFramed := h.toFramed.of_alike hold (by simp [Resolution.modifyKind])
    scope_lt := fun g fr' hg => ?_
    documented := fun g fr' hg => ?_
    value := fun σ sc name v hσ hv => boundIn_of_frames (h.value σ sc name v hσ hv)
      (fun _ hb => hb) hold
    default := fun b entry hb name v hv => boundIn_of_frames (h.default b entry hb name v hv)
      (fun _ hb => hb) hold
    scopes_le := by simpa [Resolution.modifyKind] using h.scopes_le },
    ⟨{ Extends.refl (c := c) s with frame := hold }, fun _ _ _ _ h => .inl h⟩⟩
  · obtain ⟨fr, hg, ha⟩ := hcases g fr' hg
    rw [ha.2.2.1]
    exact h.scope_lt g fr hg
  · obtain ⟨fr, hg, ha⟩ := hcases g fr' hg
    rw [ha.2.1]
    exact h.documented g fr hg

/-- A document asks for more ranges, or for more documents. -/
theorem modifyInfo (h : s.Proper c) (d : String) (f : DocumentInfo → DocumentInfo)
    (hf : ∀ info, info.ranges ⊆ (f info).ranges) :
    (s.modifyInfo d f).Proper c ∧ s.Furthers c Nowhere (s.modifyInfo d f) := by
  refine ⟨{ h with toFramed := h.toFramed.of_frames rfl, documented := fun g fr hg => ?_ },
    { Furthers.refl (c := c) s with ranges := fun e info he => ?_ }⟩
  · have hsome := h.documented g fr hg
    rw [info?_modifyInfo]
    split
    · simpa using hsome
    · exact hsome
  · rw [info?_modifyInfo, he]
    split
    · exact ⟨f info, rfl, hf info⟩
    · exact ⟨info, rfl, fun _ ht => ht⟩

/-- Names are registered. -/
theorem names (h : s.Proper c) {r : Registry} (hr : Registry.Names c s.registry r) :
    Proper c { s with registry := r } ∧ s.Furthers c Nowhere { s with registry := r } := by
  have hvalue : ∀ v binding, s.registry.value? v = some binding → r.value? v = some binding := by
    intro v binding hv
    rwa [Registry.value?, hr.values]
  have hold : ∀ f fr, s.frame? f = some fr → ∃ fr',
      frame? { s with registry := r } f = some fr' ∧ fr.Alike fr' :=
    fun f fr hf => ⟨fr, hf, .refl fr⟩
  refine ⟨{ h with
    toFramed := h.toFramed.of_frames rfl
    registry := hr.proper h.registry
    scope_lt := fun f fr hf => hr.size ▸ h.scope_lt f fr hf
    value := fun σ sc' name v hσ hv => ?_
    default := fun b entry hb name v hv => ?_
    state := fun σ k st hs => hr.size ▸ h.state σ k st hs
    scopes_le := hr.size ▸ h.scopes_le },
    { Furthers.refl (c := c) s with scopes := Nat.le_of_eq hr.size.symm, values := hvalue }⟩
  · obtain ⟨sc, hsc, -, hvs⟩ := hr.scope σ sc' hσ
    exact boundIn_of_frames (h.value σ sc name v hsc (hvs ▸ hv)) (hvalue v) hold
  · rw [Registry.block?, hr.blocks] at hb
    exact boundIn_of_frames (h.default b entry hb name v hv) (hvalue v) hold

/-- A scope is opened behind the others, and a frame for it. -/
theorem openScope (h : s.Proper c) (name document : String) (parent origin : Option ScopeId)
    (ho : ∀ o, origin = some o → o.index < s.registry.scopes.size) {frame : Frame}
    (hscope : frame.scope = ⟨s.registry.scopes.size⟩)
    (hp : ∀ p, frame.parent = some p → p.index < s.frames.size)
    (ha : s.Admits c frame)
    (hd : (s.info? frame.document).isSome) :
    Proper c { s with
      registry := (s.registry.newScope name document parent origin).2
      frames := s.frames.push frame } ∧
    s.Furthers c Nowhere { s with
      registry := (s.registry.newScope name document parent origin).2
      frames := s.frames.push frame } := by
  refine h.pushIn (h.registry.newScope name document parent origin ho)
    (.newScope name document parent origin s.registry) ?_ hp ?_ ha hd
  · rw [Registry.size_newScope]
    exact Nat.succ_le_succ h.scopes_le
  · rw [Registry.size_newScope, hscope]
    exact Nat.lt_succ_self _

/-- A block is added whose defaults are bound in the scope that knows it. -/
theorem pushBlock (h : s.Proper c) (entry : BlockEntry) (hb : c.HasBlock entry.block)
    (hs : entry.scope.index < s.registry.scopes.size)
    (hd : ∀ name v, entry.defaults.lookup name = some v → s.BoundIn v (· = entry.scope)) :
    Proper c { s with registry := { s.registry with blocks := s.registry.blocks.push entry } } ∧
      s.Furthers c Nowhere
        { s with registry := { s.registry with blocks := s.registry.blocks.push entry } } := by
  have hcases : ∀ (b : BlockId) e, (s.registry.blocks.push entry)[b.index]? = some e →
      e = entry ∨ s.registry.block? b = some e := by
    intro b e hb
    rw [Array.getElem?_push] at hb
    split at hb
    · exact .inl (by cases hb; rfl)
    · exact .inr hb
  refine ⟨{ h with
    toFramed := h.toFramed.of_frames rfl
    registry := { h.registry with block := fun b e hbe => ?_ }
    default := fun b e hbe name v hv => ?_ }, { Furthers.refl (c := c) s with }⟩
  · obtain rfl | hbe := hcases b e hbe
    · exact ⟨hb, hs⟩
    · exact h.registry.block b e hbe
  · obtain rfl | hbe := hcases b e hbe
    · exact hd name v hv
    · exact h.default b e hbe name v hv

/-- A text that was written is bound to a frame. -/
theorem addValue (h : s.Proper c) {body : InlineText} (hb : c.HasText body) {f : FrameId}
    {frame : Frame} (hf : s.frame? f = some frame) :
    Proper c { s with registry := (s.registry.addValue ⟨body, f⟩).2 } ∧
      s.Furthers c Nowhere { s with registry := (s.registry.addValue ⟨body, f⟩).2 } ∧
      BoundIn { s with registry := (s.registry.addValue ⟨body, f⟩).2 }
        (s.registry.addValue ⟨body, f⟩).1 (· = frame.scope) := by
  have hvalue : ∀ v binding, s.registry.value? v = some binding →
      (s.registry.addValue ⟨body, f⟩).2.value? v = some binding := by
    intro v binding hv
    have hlt : v.index < s.registry.values.size := (Array.getElem?_eq_some_iff.1 hv).1
    change (s.registry.values.push _)[v.index]? = _
    rw [Array.getElem?_push, if_neg (Nat.ne_of_lt hlt)]
    exact hv
  have hold : ∀ g fr, s.frame? g = some fr → ∃ fr',
      frame? { s with registry := (s.registry.addValue ⟨body, f⟩).2 } g = some fr' ∧
        fr.Alike fr' := fun g fr hg => ⟨fr, hg, .refl fr⟩
  refine ⟨{ h with
    toFramed := h.toFramed.of_frames rfl
    registry := { h.registry with text := fun v binding hv => ?_ }
    value := fun σ sc name v hσ hv =>
      boundIn_of_frames (h.value σ sc name v hσ hv) (hvalue v) hold
    default := fun b entry hb name v hv =>
      boundIn_of_frames (h.default b entry hb name v hv) (hvalue v) hold },
    { Furthers.refl (c := c) s with values := hvalue }, ⟨body, f⟩, frame, ?_, hf, rfl⟩
  · change (s.registry.values.push _)[v.index]? = _ at hv
    rw [Array.getElem?_push] at hv
    split at hv
    · cases hv
      exact hb
    · exact h.registry.text v binding hv
  · change (s.registry.values.push _)[s.registry.values.size]? = _
    rw [Array.getElem?_push, if_pos rfl]

/-- A value becomes known in a scope behind the one it is bound in. -/
theorem setValue (h : s.Proper c) {σ : ScopeId} (name : String) {v : ValueId}
    (hv : s.BoundIn v (·.index < σ.index)) :
    Proper c { s with registry := s.registry.setValue σ name v } ∧
      s.Furthers c Nowhere { s with registry := s.registry.setValue σ name v } := by
  have hsize : (s.registry.setValue σ name v).scopes.size = s.registry.scopes.size := by
    simp [Registry.setValue, Registry.modifyScope]
  have hcases : ∀ τ sc', (s.registry.setValue σ name v).scope? τ = some sc' →
      ∃ sc, s.registry.scope? τ = some sc ∧ (sc' = sc ∨
        τ = σ ∧ sc' = { sc with values := (name, v) :: sc.values }) := by
    intro τ sc' hτ
    unfold Registry.setValue at hτ
    rw [Registry.scope?_modifyScope] at hτ
    split at hτ
    next heq =>
      obtain ⟨sc, hsc, rfl⟩ := Option.map_eq_some_iff.1 hτ
      exact ⟨sc, hsc, .inr ⟨heq, rfl⟩⟩
    · exact ⟨sc', hτ, .inl rfl⟩
  refine ⟨{ h with
    toFramed := h.toFramed.of_frames rfl
    registry := { h.registry with
      origin := fun τ sc' o hτ ho => ?_
      anchored := fun τ sc' hτ => ?_
      block := fun b entry hb => hsize ▸ h.registry.block b entry hb }
    scope_lt := fun f fr hf => hsize ▸ h.scope_lt f fr hf
    value := fun τ sc' n w hτ hw => ?_
    state := fun τ k st hs => hsize ▸ h.state τ k st hs
    scopes_le := hsize ▸ h.scopes_le },
    { Furthers.refl (c := c) s with scopes := Nat.le_of_eq hsize.symm }⟩
  · obtain ⟨sc, hsc, rfl | ⟨-, rfl⟩⟩ := hcases τ sc' hτ
    · exact h.registry.origin τ _ o hsc ho
    · exact h.registry.origin τ sc o hsc ho
  · obtain ⟨sc, hsc, rfl | ⟨-, rfl⟩⟩ := hcases τ sc' hτ
    · exact h.registry.anchored τ _ hsc
    · exact h.registry.anchored τ sc hsc
  · obtain ⟨sc, hsc, rfl | ⟨rfl, rfl⟩⟩ := hcases τ sc' hτ
    · exact h.value τ _ n w hsc hw
    · rw [Table.lookup_cons] at hw
      split at hw
      · cases hw
        exact hv
      · exact h.value τ sc n w hsc hw

/-- A state is set. That of a node is set for the first time. -/
theorem setState (h : s.Proper c) {f : FrameId} {frame : Frame}
    (hf : s.frame? f = some frame) {key : NodeKey} {state : NodeState} (hst : c.Suits key state)
    (hfree : c.stock.key key → s.stateIn? frame.scope key = none) :
    (s.setState f key state).Proper c ∧
      s.Extends c (fun σ k => σ = frame.scope ∧ k = key) (s.setState f key state) := by
  have hlt : frame.scope.index < s.registry.scopes.size := h.scope_lt f frame hf
  refine ⟨{ h with toFramed := h.toFramed.of_frames rfl, state := fun σ k st hs => ?_ },
    { Extends.refl (c := c) s with
    kept := fun σ k hs => ?_
    node := fun σ k st hk hs => ?_
    touched := fun σ k hk hne => ?_ }⟩ <;>
    simp only [stateIn?_setState, Resolution.scopeOf_eq hf] at *
  · split at hs
    next heq =>
      cases hs
      exact ⟨heq.2 ▸ hst, heq.1 ▸ hlt⟩
    · exact h.state σ k st hs
  · split
    · rfl
    · exact hs
  · rw [if_neg, hs]
    rintro ⟨rfl, rfl⟩
    simp [hfree hk] at hs
  · exact Classical.byContradiction fun hn => hne (if_neg hn)

/-- The state of a part of a text is set. -/
theorem setPart (h : s.Proper c) (hc : c.Described) {f : FrameId} {frame : Frame}
    (hf : s.frame? f = some frame) {t : InlineText} (ht : c.HasText t) {p : Part}
    (hp : p ∈ t.parts) {key : NodeKey} (hk : p.key? = some key) {state : NodeState}
    (hst : c.Suits key state) :
    (s.setState f key state).Proper c ∧ s.Extends c Nowhere (s.setState f key state) := by
  have hkey : ¬c.stock.key key := hc.part_not_key ht hp hk
  obtain ⟨hproper, hext⟩ := h.setState hf hst fun hk => (hkey hk).elim
  exact ⟨hproper, { hext with
    touched := fun σ k hk hne => hkey ((hext.touched σ k hk hne).2 ▸ hk) }⟩

theorem start (c : Collection) : c.start.Proper c where
  registry :=
    { origin := by simp [Collection.start, Registry.scope?]
      anchored := by simp [Collection.start, Registry.scope?]
      text := by simp [Collection.start, Registry.value?]
      block := by simp [Collection.start, Registry.block?]
      untitled := by simp [Collection.start, Registry.entryAt?] }
  ordered f frame p hf := by simp [Collection.start, frame?] at hf
  admits f frame hf := by simp [Collection.start, frame?] at hf
  scope_lt := by simp [Collection.start, frame?]
  documented := by simp [Collection.start, frame?]
  value := by simp [Collection.start, Registry.scope?]
  default := by simp [Collection.start, Registry.block?]
  state := by simp [Collection.start, stateIn?]
  scopes_le := Nat.le_refl 0

/-- More is known about documents. -/
theorem withDocuments (h : s.Proper c) {documents : Table DocumentInfo}
    (hd : ∀ d, (s.info? d).isSome → (documents.lookup d).isSome) :
    Proper c { s with documents } :=
  { h with
    toFramed := h.toFramed.of_frames rfl
    documented := fun f frame hf => hd _ (h.documented f frame hf) }

end Proper

end Resolution

end Folio
