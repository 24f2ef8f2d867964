import Folio.Proofs.Keys
import Folio.Proofs.Outcome

/-!
# What a resolution keeps

Frames, scopes and what nodes are registered as stay once they are there. `Resolution.Grows` says
this of two states of a resolution, for the phase of registration. The states of nodes that stay
are those of labeled nodes, embeddings and expansions; a state is *fixed* if it is one of these.

`Resolution.Fine` is the invariant of registration: scopes of frames exist, only nodes have fixed
states, and the values and blocks that are known have keys of their own.
-/

namespace Folio

/-- Two frames of one sort count the same label types. -/
def FrameKind.Alike : FrameKind → FrameKind → Prop
  | .document _, .document _ => True
  | .subRange typ _ _, .subRange typ' _ _ => typ' = typ
  | .block calls, .block calls' => calls' = calls
  | .static, .static => True
  | _, _ => False

namespace FrameKind.Alike

variable {k k' k'' : FrameKind}

@[simp]
theorem refl (k : FrameKind) : k.Alike k := by
  cases k <;> simp [Alike]

theorem trans (h : k.Alike k') (h' : k'.Alike k'') : k.Alike k'' := by
  cases k <;> cases k' <;> cases k'' <;> simp_all [Alike]

theorem counts_eq (h : k.Alike k') (typ : String) : k'.counts typ = k.counts typ := by
  cases k <;> cases k' <;> simp_all [Alike, counts]

end FrameKind.Alike

/-- No range is counted in a frame yet. -/
def FrameKind.Blank : FrameKind → Prop
  | .subRange _ _ range => range = none
  | _ => True

/-- A frame keeps everything but the ordinals it counts and the range it counts in. -/
def Frame.Alike (a b : Frame) : Prop :=
  b.parent = a.parent ∧ b.document = a.document ∧ b.scope = a.scope ∧ a.kind.Alike b.kind

theorem Frame.Alike.refl (a : Frame) : a.Alike a := ⟨rfl, rfl, rfl, .refl _⟩

theorem Frame.Alike.trans {a b c : Frame} (h : a.Alike b) (h' : b.Alike c) : a.Alike c :=
  ⟨h'.1.trans h.1, h'.2.1.trans h.2.1, h'.2.2.1.trans h.2.2.1, h.2.2.2.trans h'.2.2.2⟩

/-- Does the state of a node stay once it is set? -/
def NodeState.isFixed : NodeState → Bool
  | .labeled .. | .embedding _ | .expansion .. => true
  | _ => false

namespace Resolution

variable (s : Resolution)

/-- The fixed state of a node in a scope. -/
def fixed? (scope : ScopeId) (key : NodeKey) : Option NodeState :=
  (s.stateIn? scope key).filter NodeState.isFixed

theorem stateIn?_setState (f : FrameId) (key : NodeKey) (state : NodeState) (scope : ScopeId)
    (k : NodeKey) : (s.setState f key state).stateIn? scope k =
      if scope = s.scopeOf f ∧ k = key then some state else s.stateIn? scope k := by
  unfold stateIn? setState
  rw [List.lookup_cons]
  by_cases h : scope = s.scopeOf f ∧ k = key
  · simp [h]
  · rw [if_neg h]
    split
    next heq => simp_all
    · rfl

theorem fixed?_setState (f : FrameId) (key : NodeKey) (state : NodeState) (scope : ScopeId)
    (k : NodeKey) : (s.setState f key state).fixed? scope k =
      if scope = s.scopeOf f ∧ k = key then (some state).filter NodeState.isFixed
      else s.fixed? scope k := by
  unfold fixed?
  rw [stateIn?_setState]
  split <;> rfl

variable {s}

theorem stateIn?_of_fixed? {scope : ScopeId} {key : NodeKey} {state : NodeState}
    (h : s.fixed? scope key = some state) :
    s.stateIn? scope key = some state ∧ state.isFixed = true := by
  simpa [fixed?, Option.filter_eq_some_iff] using h

theorem scopeOf_eq {f : FrameId} {frame : Frame} (h : s.frame? f = some frame) :
    s.scopeOf f = frame.scope := by
  simp [scopeOf, h]

theorem documentOf_eq {f : FrameId} {frame : Frame} (h : s.frame? f = some frame) :
    s.documentOf f = frame.document := by
  simp [documentOf, h]

theorem documentOf_of_alike {s' : Resolution} (ha : ∀ f frame, s.frame? f = some frame →
    ∃ frame', s'.frame? f = some frame' ∧ frame.Alike frame') {f : FrameId} {frame : Frame}
    (hf : s.frame? f = some frame) : s'.documentOf f = s.documentOf f := by
  obtain ⟨frame', hf', halike⟩ := ha f frame hf
  rw [documentOf_eq hf, documentOf_eq hf', halike.2.1]

/-- The position of the next frame. -/
def freshFrame (s : Resolution) : FrameId := ⟨s.frames.size⟩

theorem frame?_push (frame : Frame) (f : FrameId) :
    frame? { s with frames := s.frames.push frame } f =
      if f = s.freshFrame then some frame else s.frame? f := by
  obtain ⟨f⟩ := f
  simp only [frame?, freshFrame, Array.getElem?_push, FrameId.mk.injEq]

theorem frame?_modifyKind (f : FrameId) (kind : FrameKind → FrameKind) (g : FrameId) :
    (s.modifyKind f kind).frame? g =
      if g = f then (s.frame? g).map fun frame => { frame with kind := kind frame.kind }
      else s.frame? g := by
  obtain ⟨f⟩ := f
  obtain ⟨g⟩ := g
  simp only [frame?, modifyKind, Array.getElem?_modify, FrameId.mk.injEq]
  by_cases h : g = f
  · simp [h]
  · simp [h, Ne.symm h]

theorem freshFrame_of_frame? {f : FrameId} {frame : Frame} (h : s.frame? f = some frame) :
    f ≠ s.freshFrame := by
  rintro rfl
  simp [frame?, freshFrame] at h

theorem frame?_of_mem_framesUp {fuel : Nat} {o : Option FrameId} {p : FrameId × Frame}
    (h : p ∈ s.framesUp fuel o) : s.frame? p.1 = some p.2 := by
  induction fuel generalizing o with
  | zero => cases o <;> simp [framesUp] at h
  | succ fuel ih =>
    cases o with
    | none => simp [framesUp] at h
    | some f =>
      unfold framesUp at h
      split at h
      · simp at h
      next frame hf =>
        rcases List.mem_cons.1 h with rfl | h
        · exact hf
        · exact ih h

theorem framesUp_congr {s s' : Resolution} (h : s'.frames = s.frames) (fuel : Nat)
    (o : Option FrameId) : s'.framesUp fuel o = s.framesUp fuel o := by
  induction fuel generalizing o with
  | zero => cases o <;> rfl
  | succ fuel ih =>
    cases o with
    | none => rfl
    | some f =>
      have hf : s'.frame? f = s.frame? f := by rw [frame?, frame?, h]
      unfold framesUp
      rw [hf]
      split
      · rfl
      next frame _ => exact congrArg _ (ih frame.parent)

theorem countingFrame?_congr {s s' : Resolution} (h : s'.frames = s.frames) (f : FrameId)
    (typ : String) : s'.countingFrame? f typ = s.countingFrame? f typ := by
  unfold countingFrame? frameChain
  rw [framesUp_congr h, h]

theorem countingFrame?_eq_some {f owner : FrameId} {frame : Frame} {typ : String}
    (h : s.countingFrame? f typ = some (owner, frame)) :
    s.frame? owner = some frame ∧ frame.kind.counts typ = true :=
  ⟨frame?_of_mem_framesUp (List.mem_of_find?_eq_some h), by simpa using List.find?_some h⟩

end Resolution

namespace Table

variable {α : Type}

theorem lookup_change (key k : String) (f : α → α) (t : Table α) :
    (t.change key f).lookup k = if k = key then (t.lookup k).map f else t.lookup k := by
  induction t with
  | nil => simp [change]
  | cons e t ih =>
    obtain ⟨k', x⟩ := e
    change List.lookup k ((k', if k' = key then f x else x) :: Table.change key f t) = _
    rw [lookup_cons, lookup_cons, ih]
    by_cases h : k = k' <;> by_cases h' : k = key <;> simp_all

@[simp]
theorem keys_change (key : String) (f : α → α) (t : Table α) : (t.change key f).keys = t.keys := by
  simp [change, keys]

theorem mem_keys_iff {t : Table α} {key : String} : key ∈ t.keys ↔ ∃ x, t.lookup key = some x := by
  induction t with
  | nil => simp [keys]
  | cons e t ih =>
    obtain ⟨k, x⟩ := e
    rw [lookup_cons]
    change key ∈ k :: Table.keys t ↔ _
    rw [List.mem_cons, ih]
    by_cases h : key = k <;> simp [h]

theorem mem_of_lookup {t : Table α} {key : String} {x : α} (h : t.lookup key = some x) :
    (key, x) ∈ t := by
  induction t with
  | nil => cases h
  | cons e t ih =>
    obtain ⟨k, y⟩ := e
    rw [lookup_cons] at h
    split at h
    · simp_all
    · exact List.mem_cons_of_mem _ (ih h)

theorem mem_keys_put {t : Table α} {key k : String} {x : α} :
    k ∈ (t.put key x).keys ↔ k = key ∨ k ∈ t.keys := by
  rw [mem_keys_iff, lookup_put]
  split
  next h => simp [h]
  next h => simp [h, mem_keys_iff]

/-- Keys stay in their order. -/
theorem sorted_put {t : Table α} (h : t.keys.Pairwise (· < ·)) (key : String) (x : α) :
    (t.put key x).keys.Pairwise (· < ·) := by
  induction t with
  | nil => simp [put, keys]
  | cons e t ih =>
    obtain ⟨k, y⟩ := e
    obtain ⟨hk, ht⟩ := List.pairwise_cons.1 h
    unfold put
    split
    next heq => exact List.pairwise_cons.2 ⟨heq ▸ hk, ht⟩
    next hne =>
      split
      next hlt =>
        refine List.pairwise_cons.2 ⟨fun k' hk' => ?_, h⟩
        rcases List.mem_cons.1 hk' with rfl | hk'
        · exact hlt
        · exact String.lt_trans hlt (hk k' hk')
      next hnlt =>
        refine List.pairwise_cons.2 ⟨fun k' hk' => ?_, ih ht⟩
        rcases mem_keys_put.1 hk' with rfl | hk'
        · exact Std.lt_of_le_of_ne (String.not_lt.1 hnlt) (Ne.symm hne)
        · exact hk k' hk'

end Table

theorem Registry.entryAt?_modifyEntry (r : Registry) (e : EntryId) (f : Entry → Entry)
    (i : EntryId) : (r.modifyEntry e f).entryAt? i =
      if i = e then (r.entryAt? i).map f else r.entryAt? i := by
  obtain ⟨e⟩ := e
  obtain ⟨i⟩ := i
  simp only [entryAt?, modifyEntry, Array.getElem?_modify, EntryId.mk.injEq]
  by_cases h : i = e
  · simp [h]
  · simp [h, Ne.symm h]

namespace Resolution

theorem info?_modifyInfo (s : Resolution) (document : String) (f : DocumentInfo → DocumentInfo)
    (d : String) : (s.modifyInfo document f).info? d =
      if d = document then (s.info? d).map f else s.info? d :=
  Table.lookup_change document d f s.documents

@[simp]
theorem keys_modifyInfo (s : Resolution) (document : String) (f : DocumentInfo → DocumentInfo) :
    (s.modifyInfo document f).documents.keys = s.documents.keys :=
  Table.keys_change document f s.documents

/-! ## Growing -/

/-- `s'` knows what `s` knows, and nothing is numbered in between. -/
structure Grows (s s' : Resolution) : Prop where
  options : s'.options = s.options
  numbering : s'.numbering = s.numbering
  roots : s'.roots = s.roots
  frame : ∀ f frame, s.frame? f = some frame → ∃ frame', s'.frame? f = some frame' ∧
    frame.Alike frame'
  scopes : s.registry.scopes.size ≤ s'.registry.scopes.size
  entry : ∀ e entry, s.registry.entryAt? e = some entry →
    ∃ anchors, s'.registry.entryAt? e = some { entry with anchors }
  fixed : ∀ scope key state, s.fixed? scope key = some state → s'.fixed? scope key = some state
  keys : s'.documents.keys = s.documents.keys
  info : ∀ d info, s.info? d = some info →
    ∃ ranges requests, s'.info? d = some { info with ranges, requests }

namespace Grows

variable {s s' s'' : Resolution}

theorem refl (s : Resolution) : s.Grows s where
  options := rfl
  numbering := rfl
  roots := rfl
  frame _ frame h := ⟨frame, h, .refl frame⟩
  scopes := Nat.le_refl _
  entry _ entry h := ⟨entry.anchors, h⟩
  fixed _ _ _ h := h
  keys := rfl
  info _ info h := ⟨info.ranges, info.requests, h⟩

theorem trans (h : s.Grows s') (h' : s'.Grows s'') : s.Grows s'' where
  options := h'.options.trans h.options
  numbering := h'.numbering.trans h.numbering
  roots := h'.roots.trans h.roots
  frame f frame hf := by
    obtain ⟨frame', hf', ha⟩ := h.frame f frame hf
    obtain ⟨frame'', hf'', ha'⟩ := h'.frame f frame' hf'
    exact ⟨frame'', hf'', ha.trans ha'⟩
  scopes := Nat.le_trans h.scopes h'.scopes
  entry e entry he := by
    obtain ⟨anchors, he'⟩ := h.entry e entry he
    obtain ⟨anchors', he''⟩ := h'.entry e _ he'
    exact ⟨anchors', he''⟩
  fixed scope key state hs := h'.fixed scope key state (h.fixed scope key state hs)
  keys := h'.keys.trans h.keys
  info d info hd := by
    obtain ⟨ranges, requests, hd'⟩ := h.info d info hd
    obtain ⟨ranges', requests', hd''⟩ := h'.info d _ hd'
    exact ⟨ranges', requests', hd''⟩

theorem documentOf_eq (h : s.Grows s') {f : FrameId} {frame : Frame}
    (hf : s.frame? f = some frame) : s'.documentOf f = s.documentOf f :=
  documentOf_of_alike h.frame hf

end Grows

/-- Scopes of frames exist and no ranges are counted in them, only nodes have fixed states, no entry
has a slot, what may be evaluated or expanded has keys of its own, and what is addressed by a path is
in the document at that path. -/
structure Fine (K : Stock) (s : Resolution) : Prop where
  blank : ∀ f frame, s.frame? f = some frame → frame.kind.Blank
  scope_lt : ∀ f, (s.scopeOf f).index < s.registry.scopes.size
  fixed_mem : ∀ scope key state, s.fixed? scope key = some state →
    K.key key ∧ scope.index < s.registry.scopes.size
  unslotted : ∀ e entry, s.registry.entryAt? e = some entry → entry.slot = none
  value : ∀ v binding, s.registry.value? v = some binding → binding.body.Fits K
  block : ∀ b entry, s.registry.block? b = some entry → entry.block.Fits K
  place : ∀ path anchor address, s.registry.address? (.place path anchor) = some address →
    address.document = path

/-- A step that grows, and registers no node. -/
structure Quiet (K : Stock) (s s' : Resolution) : Prop extends s.Grows s' where
  fine : Fine K s'
  fixed_eq : ∀ scope key, s'.fixed? scope key = s.fixed? scope key
  entries : s'.registry.entries = s.registry.entries
  info_eq : ∀ d info, s.info? d = some info → ∃ ranges, s'.info? d = some { info with ranges }

namespace Quiet

variable {K : Stock} {s s' s'' : Resolution}

theorem refl (h : Fine K s) : Quiet K s s :=
  { Grows.refl s with
    fine := h
    fixed_eq := fun _ _ => rfl
    entries := rfl
    info_eq := fun _ info hd => ⟨info.ranges, hd⟩ }

theorem trans (h : Quiet K s s') (h' : Quiet K s' s'') : Quiet K s s'' :=
  { h.toGrows.trans h'.toGrows with
    fine := h'.fine
    fixed_eq := fun scope key => (h'.fixed_eq scope key).trans (h.fixed_eq scope key)
    entries := h'.entries.trans h.entries
    info_eq := fun d info hd => by
      obtain ⟨ranges, hd'⟩ := h.info_eq d info hd
      obtain ⟨ranges', hd''⟩ := h'.info_eq d _ hd'
      exact ⟨ranges', hd''⟩ }

/-- A new frame with a scope that exists. -/
theorem push (h : Fine K s) {frame : Frame} (hf : frame.scope.index < s.registry.scopes.size)
    (hb : frame.kind.Blank) : Quiet K s { s with frames := s.frames.push frame } := by
  have hold : ∀ f fr, s.frame? f = some fr →
      frame? { s with frames := s.frames.push frame } f = some fr := fun f fr hfr => by
    rw [frame?_push, if_neg (freshFrame_of_frame? hfr), hfr]
  refine { refl h with
    frame := fun f fr hfr => ⟨fr, hold f fr hfr, .refl fr⟩
    fine := { h with blank := fun f fr hfr => ?_, scope_lt := fun f => ?_ } }
  · rw [frame?_push] at hfr
    split at hfr
    · cases hfr
      exact hb
    · exact h.blank f fr hfr
  · unfold scopeOf
    rw [frame?_push]
    split
    · exact hf
    · exact h.scope_lt f

/-- The ordinals and ranges of frames change. -/
theorem modifyKind (h : Fine K s) (f : FrameId) (kind : FrameKind → FrameKind)
    (hk : ∀ frame, s.frame? f = some frame → frame.kind.Blank →
      frame.kind.Alike (kind frame.kind) ∧ (kind frame.kind).Blank) :
    Quiet K s (s.modifyKind f kind) := by
  refine { refl h with
    frame := fun g fr hfr => ?_
    fine := { h with blank := fun g fr hfr => ?_, scope_lt := fun g => ?_ } }
  · rw [frame?_modifyKind, hfr]
    split
    next hg => exact ⟨_, rfl, rfl, rfl, rfl, (hk fr (hg ▸ hfr) (h.blank g fr hfr)).1⟩
    · exact ⟨fr, rfl, .refl fr⟩
  · rw [frame?_modifyKind] at hfr
    split at hfr
    next hg =>
      obtain ⟨fr', hfr', rfl⟩ := Option.map_eq_some_iff.1 hfr
      exact (hk fr' (hg ▸ hfr') (h.blank g fr' hfr')).2
    · exact h.blank g fr hfr
  · have hg := h.scope_lt g
    change _ < s.registry.scopes.size
    unfold scopeOf at *
    rw [frame?_modifyKind]
    cases hfr : s.frame? g with
    | none => simpa [hfr] using hg
    | some fr =>
      split <;> simpa [hfr] using hg

/-- A state is set that is not fixed, where there is no fixed one. -/
theorem setState (h : Fine K s) {f : FrameId} {key : NodeKey} {state : NodeState}
    (hst : state.isFixed = false) (hk : s.fixed? (s.scopeOf f) key = none) :
    Quiet K s (s.setState f key state) := by
  have heq : ∀ scope k, (s.setState f key state).fixed? scope k = s.fixed? scope k := by
    intro scope k
    rw [fixed?_setState]
    split
    next hsk => rw [hsk.1, hsk.2, hk]; simp [hst]
    · rfl
  exact { refl h with
    fixed := fun scope k st hs => (heq scope k).trans hs
    fine := { h with fixed_mem := fun scope k st hs => h.fixed_mem scope k st (heq scope k ▸ hs) }
    fixed_eq := heq }

/-- The state of a part of a text is set. -/
theorem setPart (h : Fine K s) {f : FrameId} {key : NodeKey} {state : NodeState}
    (hst : state.isFixed = false) (hk : ¬K.key key) : Quiet K s (s.setState f key state) := by
  refine setState h hst ?_
  cases hs : s.fixed? (s.scopeOf f) key with
  | none => rfl
  | some st => exact (hk (h.fixed_mem _ _ st hs).1).elim

/-- The ranges of a document change. -/
theorem modifyInfo (h : Fine K s) (document : String) (f : DocumentInfo → DocumentInfo)
    (hf : ∀ info, ∃ ranges, f info = { info with ranges }) :
    Quiet K s (s.modifyInfo document f) := by
  have hinfo : ∀ d info, s.info? d = some info →
      ∃ ranges, (s.modifyInfo document f).info? d = some { info with ranges } := by
    intro d info hd
    rw [info?_modifyInfo, hd]
    split
    · obtain ⟨ranges, hfi⟩ := hf info
      exact ⟨ranges, by rw [Option.map_some, hfi]⟩
    · exact ⟨info.ranges, rfl⟩
  exact { refl h with
    keys := keys_modifyInfo s document f
    info := fun d info hd =>
      let ⟨ranges, hd'⟩ := hinfo d info hd
      ⟨ranges, info.requests, hd'⟩
    fine := { h with }
    info_eq := hinfo }

end Quiet

end Resolution

/-- Registries that differ in what is known in scopes, and in new scopes, values and blocks. -/
structure Registry.Quiet (K : Stock) (r r' : Registry) : Prop where
  scopes : r.scopes.size ≤ r'.scopes.size
  entries : r'.entries = r.entries
  value : ∀ v binding, r'.value? v = some binding → r.value? v = some binding ∨ binding.body.Fits K
  block : ∀ b entry, r'.block? b = some entry → r.block? b = some entry ∨ entry.block.Fits K
  place : ∀ path anchor address, r'.address? (.place path anchor) = some address →
    r.address? (.place path anchor) = some address ∨ address.document = path

namespace Registry.Quiet

variable {K : Stock} {r r' r'' : Registry}

theorem refl (r : Registry) : Registry.Quiet K r r :=
  ⟨Nat.le_refl _, rfl, fun _ _ h => .inl h, fun _ _ h => .inl h, fun _ _ _ h => .inl h⟩

theorem trans (h : Registry.Quiet K r r') (h' : Registry.Quiet K r' r'') : Registry.Quiet K r r'' where
  scopes := Nat.le_trans h.scopes h'.scopes
  entries := h'.entries.trans h.entries
  value v binding hv := (h'.value v binding hv).elim (h.value v binding) .inr
  block b entry hb := (h'.block b entry hb).elim (h.block b entry) .inr
  place path anchor address ha :=
    (h'.place path anchor address ha).elim (h.place path anchor address) .inr

theorem modifyScope (r : Registry) (scope : ScopeId) (f : Scope → Scope) :
    Registry.Quiet K r (r.modifyScope scope f) :=
  { refl r with scopes := by simp [Registry.modifyScope] }

theorem newScope (r : Registry) (name document : String) (parent origin : Option ScopeId) :
    Registry.Quiet K r (r.newScope name document parent origin).2 :=
  { refl r with scopes := by simp [Registry.newScope] }

theorem addValue (r : Registry) {binding : Binding} (hb : binding.body.Fits K) :
    Registry.Quiet K r (r.addValue binding).2 := by
  refine { refl r with value := fun v b hv => ?_ }
  change (r.values.push binding)[v.index]? = some b at hv
  rw [Array.getElem?_push] at hv
  split at hv
  · cases hv
    exact .inr hb
  · exact .inl hv

theorem pushBlock (r : Registry) {entry : BlockEntry} (he : entry.block.Fits K) :
    Registry.Quiet K r { r with blocks := r.blocks.push entry } := by
  refine { refl r with block := fun b e hb => ?_ }
  change (r.blocks.push entry)[b.index]? = some e at hb
  rw [Array.getElem?_push] at hb
  split at hb
  · cases hb
    exact .inr he
  · exact .inl hb

/-- Tags, blocks and roots of the index change. -/
theorem modifyIndex (r : Registry) {index : GlobalIndex}
    (h : index.addresses = r.index.addresses) : Registry.Quiet K r { r with index } :=
  { refl r with
    place := fun path anchor address ha => .inl (by rwa [Registry.address?, h] at ha) }

end Registry.Quiet

namespace Resolution

variable {K : Stock} {s : Resolution} {r : Registry}

theorem Fine.registry (h : Fine K s) (hscopes : s.registry.scopes.size ≤ r.scopes.size)
    (hentry : ∀ e entry, r.entryAt? e = some entry →
      s.registry.entryAt? e = some entry ∨ entry.slot = none)
    (hvalue : ∀ v binding, r.value? v = some binding →
      s.registry.value? v = some binding ∨ binding.body.Fits K)
    (hblock : ∀ b entry, r.block? b = some entry →
      s.registry.block? b = some entry ∨ entry.block.Fits K)
    (hplace : ∀ path anchor address, r.address? (.place path anchor) = some address →
      s.registry.address? (.place path anchor) = some address ∨ address.document = path) :
    Fine K { s with registry := r } where
  blank := h.blank
  scope_lt f := Nat.lt_of_lt_of_le (h.scope_lt f) hscopes
  fixed_mem scope key state hs :=
    ⟨(h.fixed_mem scope key state hs).1,
      Nat.lt_of_lt_of_le (h.fixed_mem scope key state hs).2 hscopes⟩
  unslotted e entry he := (hentry e entry he).elim (h.unslotted e entry) id
  value v binding hv := (hvalue v binding hv).elim (h.value v binding) id
  block b entry hb := (hblock b entry hb).elim (h.block b entry) id
  place path anchor address ha :=
    (hplace path anchor address ha).elim (h.place path anchor address) id

theorem Quiet.registry (h : Fine K s) (hr : Registry.Quiet K s.registry r) :
    Quiet K s { s with registry := r } :=
  { refl h with
    scopes := hr.scopes
    entry := fun e entry he => ⟨entry.anchors, by
      change r.entries[e.index]? = _
      rw [hr.entries]
      exact he⟩
    fine := by
      refine h.registry hr.scopes (fun e entry he => .inl ?_) hr.value hr.block hr.place
      rwa [Registry.entryAt?, hr.entries] at he
    entries := hr.entries }

end Resolution

/-! ## Steps that may fail -/

namespace Run

variable {α : Type} {R : ResolveError → Prop} {E : Prop} {s : Resolution}
  {Q : α → Resolution → Prop} {location : Location}

theorem ends_orFail_iff {cause : Cause} {x : Option α} :
    Ends R (Run.orFail location cause x) s Q ↔
      (∀ a, x = some a → Q a s) ∧ (x = none → R (.located location cause)) := by
  cases x with
  | none => exact ⟨fun h => ⟨fun _ ha => by simp at ha, fun _ => h⟩, fun h => h.2 rfl⟩
  | some a => exact ⟨fun h => ⟨fun _ ha => Option.some.inj ha ▸ h, fun ha => by simp at ha⟩,
      fun h => h.1 a rfl⟩

theorem ends_numbering_iff {step : Numbering → Except NumberingError (α × Numbering)} :
    Ends R (Run.numbering location step) s Q ↔
      (∀ a n, step s.numbering = .ok (a, n) → Q a { s with numbering := n }) ∧
        (∀ e, step s.numbering = .error e → R (.located location (.numbering e))) := by
  unfold Run.numbering
  rw [Ends.bind_iff, Ends.get_iff]
  cases h : step s.numbering with
  | error e =>
    refine ⟨fun hR => ⟨fun _ _ ha => by simp at ha, fun e' he => ?_⟩, fun h => h.2 e rfl⟩
    cases he
    exact hR
  | ok x =>
    obtain ⟨a, n⟩ := x
    dsimp only
    rw [Ends.bind_iff, Ends.modify_iff]
    refine ⟨fun hQ => ⟨fun a' n' ha => ?_, fun _ ha => by simp at ha⟩, fun h => h.1 a n rfl⟩
    cases ha
    exact hQ

theorem orFail_iff {cause : Cause} {x : Option α} :
    After E (Run.orFail location cause x) s Q ↔ (∀ a, x = some a → Q a s) ∧ (x = none → E) :=
  ends_orFail_iff (R := fun _ => E)

theorem valueState_spec (f : FrameId) (location : Location) (key : NodeKey) :
    After True (valueState f location key) s fun _ s' => s' = s := by
  unfold valueState
  rw [After.bind_iff, After.get_iff]
  split
  · rfl
  · exact trivial

theorem numbering_iff {step : Numbering → Except NumberingError (α × Numbering)} :
    After E (Run.numbering location step) s Q ↔
      (∀ a n, step s.numbering = .ok (a, n) → Q a { s with numbering := n }) ∧
        (∀ e, step s.numbering = .error e → E) :=
  ends_numbering_iff (R := fun _ => E)

end Run

end Folio
