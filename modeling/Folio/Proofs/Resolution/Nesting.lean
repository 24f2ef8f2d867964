import Folio.Proofs.Resolution.State
import Folio.Proofs.Texts
import Mathlib.Data.List.Dedup

/-!
# Frames in frames

Each frame was opened from inside an earlier one (`Resolution.Ordered`). What a search through the
frames around one finds is therefore a function of the frame and of what the search finds from its
parent, and proofs about it are by induction along parents (`Ordered.induction`).

Two sorts of frames add something to the frame that they lie in. An expansion adds the name of its
block to the call stack, and a value is evaluated in an earlier scope than the text that it stands
in. `Resolution.Framed` says this of all frames. So the call stack of a frame is as long as the
frame lies deep in expansions (`Framed.length_calls`), and since its names are distinct, the names
of the blocks bound that depth (`Framed.length_expansions_le`).
-/

namespace Folio

namespace Resolution

/-! ## Frames in earlier frames -/

/-- Frames lie in earlier ones. -/
def Ordered (s : Resolution) : Prop :=
  ∀ f frame p, s.frame? f = some frame → frame.parent = some p → p.index < f.index

/-- The expansions that a frame lies in, the innermost first. -/
def expansions (s : Resolution) (f : FrameId) : List FrameId :=
  (s.frameChain f).filterMap fun (g, frame) =>
    match frame.kind with
    | .block _ => some g
    | _ => none

variable {s s' : Resolution}

theorem index_lt_of_frame? {f : FrameId} {frame : Frame} (h : s.frame? f = some frame) :
    f.index < s.frames.size := (Array.getElem?_eq_some_iff.1 h).1

theorem frame?_congr (h : s'.frames = s.frames) (f : FrameId) : s'.frame? f = s.frame? f := by
  rw [frame?, frame?, h]

theorem frameChain_congr (h : s'.frames = s.frames) (f : FrameId) :
    s'.frameChain f = s.frameChain f := by
  unfold frameChain
  rw [framesUp_congr h, h]

theorem callStack_congr (h : s'.frames = s.frames) (f : FrameId) :
    s'.callStack f = s.callStack f := by
  rw [callStack, callStack, frameChain_congr h]

section Ordered

theorem Ordered.exists_parent (ho : s.Ordered) {f p : FrameId} {frame : Frame}
    (hf : s.frame? f = some frame) (hp : frame.parent = some p) :
    ∃ outer, s.frame? p = some outer := by
  have hlt := ho f frame p hf hp
  have hsize := index_lt_of_frame? hf
  exact ⟨_, Array.getElem?_eq_getElem (show p.index < s.frames.size by omega)⟩

/-- Induction along parents. -/
theorem Ordered.induction (ho : s.Ordered) {P : FrameId → Frame → Prop}
    (h : ∀ f frame, s.frame? f = some frame →
      (∀ p outer, frame.parent = some p → s.frame? p = some outer → P p outer) → P f frame)
    {f : FrameId} {frame : Frame} (hf : s.frame? f = some frame) : P f frame := by
  obtain ⟨n, hn⟩ : ∃ n, f.index = n := ⟨_, rfl⟩
  induction n using Nat.strongRecOn generalizing f frame with
  | _ n ih =>
    refine h f frame hf fun p outer hp hpf => ?_
    have hlt := ho f frame p hf hp
    exact ih p.index (by omega) hpf rfl

theorem Ordered.of_alike (ho : s'.Ordered) (ha : ∀ f frame, s.frame? f = some frame →
    ∃ frame', s'.frame? f = some frame' ∧ frame.Alike frame') : s.Ordered := by
  intro f frame p hf hp
  obtain ⟨frame', hf', hp', -⟩ := ha f frame hf
  exact ho f frame' p hf' (hp'.trans hp)

theorem framesUp_fuel (ho : s.Ordered) {fuel fuel' : Nat} {f : FrameId} (h : f.index < fuel)
    (h' : f.index < fuel') : s.framesUp fuel (some f) = s.framesUp fuel' (some f) := by
  induction fuel generalizing f fuel' with
  | zero => omega
  | succ fuel ih =>
    obtain ⟨fuel', rfl⟩ : ∃ n, fuel' = n + 1 := ⟨fuel' - 1, by omega⟩
    unfold framesUp
    cases hf : s.frame? f with
    | none => rfl
    | some frame =>
      dsimp only
      cases hp : frame.parent with
      | none => cases fuel <;> cases fuel' <;> rfl
      | some p =>
        have hlt := ho f frame p hf hp
        rw [ih (by omega) (by omega : p.index < fuel')]

theorem frameChain_eq (ho : s.Ordered) {f : FrameId} {frame : Frame}
    (hf : s.frame? f = some frame) : s.frameChain f =
      (f, frame) :: (frame.parent.map s.frameChain).getD [] := by
  have hlt := index_lt_of_frame? hf
  obtain ⟨n, hn⟩ : ∃ n, s.frames.size = n + 1 := ⟨s.frames.size - 1, by omega⟩
  unfold frameChain
  rw [hn, framesUp, hf]
  dsimp only
  cases hp : frame.parent with
  | none => cases n <;> rfl
  | some p =>
    have hlt := ho f frame p hf hp
    exact congrArg _ (framesUp_fuel ho (by omega) (by omega))

theorem callStack_eq (ho : s.Ordered) {f : FrameId} {frame : Frame}
    (hf : s.frame? f = some frame) : s.callStack f =
      match frame.kind with
      | .block calls => calls
      | _ => (frame.parent.map s.callStack).getD {} := by
  unfold callStack
  rw [frameChain_eq ho hf, List.findSome?_cons]
  obtain ⟨parent, document, scope, kind⟩ := frame
  cases kind <;> cases parent <;> rfl

theorem expansions_eq (ho : s.Ordered) {f : FrameId} {frame : Frame}
    (hf : s.frame? f = some frame) : s.expansions f =
      match frame.kind with
      | .block _ => f :: (frame.parent.map s.expansions).getD []
      | _ => (frame.parent.map s.expansions).getD [] := by
  unfold expansions
  rw [frameChain_eq ho hf, List.filterMap_cons]
  obtain ⟨parent, document, scope, kind⟩ := frame
  cases kind <;> cases parent <;> rfl

theorem countingFrame?_eq (ho : s.Ordered) {f : FrameId} {frame : Frame}
    (hf : s.frame? f = some frame) (typ : String) : s.countingFrame? f typ =
      if frame.kind.counts typ then some (f, frame)
      else frame.parent.bind (s.countingFrame? · typ) := by
  unfold countingFrame?
  rw [frameChain_eq ho hf, List.find?_cons]
  dsimp only
  cases frame.kind.counts typ with
  | true => rfl
  | false => cases frame.parent <;> rfl

variable (ho : s.Ordered) (ho' : s'.Ordered) (ha : ∀ f frame, s.frame? f = some frame →
  ∃ frame', s'.frame? f = some frame' ∧ frame.Alike frame')

include ho ho' ha

/-- Frames stay in the expansions they lie in. -/
theorem callStack_of_alike {f : FrameId} {frame : Frame} (hf : s.frame? f = some frame) :
    s'.callStack f = s.callStack f := by
  refine ho.induction (P := fun f _ => s'.callStack f = s.callStack f) (fun f frame hf ih => ?_) hf
  obtain ⟨frame', hf', hp, -, -, hk⟩ := ha f frame hf
  have hparent : frame.parent.map s'.callStack = frame.parent.map s.callStack := by
    cases hpar : frame.parent with
    | none => rfl
    | some p =>
      obtain ⟨outer, hpf⟩ := ho.exists_parent hf hpar
      exact congrArg some (ih p outer hpar hpf)
  rw [callStack_eq ho hf, callStack_eq ho' hf', hp, hparent]
  cases hkind : frame.kind <;> cases hkind' : frame'.kind <;> simp_all [FrameKind.Alike]

theorem expansions_of_alike {f : FrameId} {frame : Frame} (hf : s.frame? f = some frame) :
    s'.expansions f = s.expansions f := by
  refine ho.induction (P := fun f _ => s'.expansions f = s.expansions f)
    (fun f frame hf ih => ?_) hf
  obtain ⟨frame', hf', hp, -, -, hk⟩ := ha f frame hf
  have hparent : frame.parent.map s'.expansions = frame.parent.map s.expansions := by
    cases hpar : frame.parent with
    | none => rfl
    | some p =>
      obtain ⟨outer, hpf⟩ := ho.exists_parent hf hpar
      exact congrArg some (ih p outer hpar hpf)
  rw [expansions_eq ho hf, expansions_eq ho' hf', hp, hparent]
  cases hkind : frame.kind <;> cases hkind' : frame'.kind <;> simp_all [FrameKind.Alike]

end Ordered

/-! ## What frames add -/

/-- What a frame adds to the one that it lies in. -/
def Admits (c : Collection) (s : Resolution) (frame : Frame) : Prop :=
  match frame.kind with
  | .block calls => ∃ p name, frame.parent = some p ∧ name ∈ c.blockNames ∧
    calls.trail.entries = (s.callStack p).trail.entries ++ [name]
  | .static => ∃ p outer, frame.parent = some p ∧ s.frame? p = some outer ∧
    frame.scope.index < outer.scope.index
  | _ => True

/-- Frames lie in earlier ones, expansions are of blocks that were written, and values are evaluated
in earlier scopes. -/
structure Framed (c : Collection) (s : Resolution) : Prop where
  ordered : s.Ordered
  admits : ∀ f frame, s.frame? f = some frame → s.Admits c frame

variable {c : Collection}

theorem Admits.of_alike (h : s.Framed c) (ho : s'.Ordered)
    (ha : ∀ f frame, s.frame? f = some frame → ∃ frame', s'.frame? f = some frame' ∧
      frame.Alike frame') {frame frame' : Frame}
    (hp : ∀ p, frame.parent = some p → ∃ outer, s.frame? p = some outer) (hf : frame.Alike frame')
    (hadmits : s.Admits c frame) : s'.Admits c frame' := by
  obtain ⟨parent, document, scope, kind⟩ := frame
  obtain ⟨parent', document', scope', kind'⟩ := frame'
  obtain ⟨hpar, -, hscope, hk⟩ := hf
  cases hpar
  cases hscope
  cases kind <;> cases kind' <;> first | exact hk.elim | exact trivial | skip
  · cases hk
    obtain ⟨p, name, hpar, hname, hcalls⟩ := hadmits
    obtain ⟨outer, houter⟩ := hp p hpar
    refine ⟨p, name, hpar, hname, hcalls.trans ?_⟩
    rw [callStack_of_alike h.ordered ho ha houter]
  · obtain ⟨p, outer, hpar, houter, hlt⟩ := hadmits
    obtain ⟨outer', houter', ha'⟩ := ha p outer houter
    exact ⟨p, outer', hpar, houter', ha'.2.2.1 ▸ hlt⟩

namespace Framed

/-- Nothing but ordinals changes in the frames. -/
theorem of_alike (h : s.Framed c) (ha : ∀ f frame, s.frame? f = some frame →
      ∃ frame', s'.frame? f = some frame' ∧ frame.Alike frame')
    (hsize : s'.frames.size = s.frames.size) : s'.Framed c := by
  have hcases : ∀ f frame', s'.frame? f = some frame' →
      ∃ frame, s.frame? f = some frame ∧ frame.Alike frame' := by
    intro f frame' hf'
    have hlt := hsize ▸ index_lt_of_frame? hf'
    obtain ⟨frame, hf⟩ : ∃ frame, s.frame? f = some frame := ⟨_, Array.getElem?_eq_getElem hlt⟩
    obtain ⟨frame'', hf'', halike⟩ := ha f frame hf
    cases hf'.symm.trans hf''
    exact ⟨frame, hf, halike⟩
  have ho : s'.Ordered := by
    intro f frame' p hf' hp
    obtain ⟨frame, hf, halike⟩ := hcases f frame' hf'
    exact h.ordered f frame p hf (halike.1.symm.trans hp)
  refine ⟨ho, fun f frame' hf' => ?_⟩
  obtain ⟨frame, hf, halike⟩ := hcases f frame' hf'
  exact .of_alike h ho ha (fun p => h.ordered.exists_parent hf) halike (h.admits f frame hf)

theorem of_frames (h : s.Framed c) (hs : s'.frames = s.frames) : s'.Framed c :=
  h.of_alike (fun f frame hf => ⟨frame, (frame?_congr hs f).trans hf, .refl frame⟩)
    (congrArg Array.size hs)

/-- A frame is opened. -/
theorem push (h : s.Framed c) {frame : Frame}
    (hp : ∀ p, frame.parent = some p → p.index < s.frames.size) (hf : s.Admits c frame) :
    Framed c { s with frames := s.frames.push frame } := by
  have ha : ∀ f fr, s.frame? f = some fr → ∃ fr',
      frame? { s with frames := s.frames.push frame } f = some fr' ∧ fr.Alike fr' :=
    fun f fr hf => ⟨fr, by rw [frame?_push, if_neg (freshFrame_of_frame? hf), hf], .refl fr⟩
  have hcases : ∀ f fr, frame? { s with frames := s.frames.push frame } f = some fr →
      (f = s.freshFrame ∧ fr = frame) ∨ s.frame? f = some fr := by
    intro f fr hf
    rw [frame?_push] at hf
    split at hf
    next hfresh => exact .inl ⟨hfresh, by cases hf; rfl⟩
    · exact .inr hf
  have ho : Ordered { s with frames := s.frames.push frame } := by
    intro f fr p hf hpar
    obtain ⟨rfl, rfl⟩ | hf := hcases f fr hf
    · exact hp p hpar
    · exact h.ordered f fr p hf hpar
  refine ⟨ho, fun f fr hf' => ?_⟩
  obtain ⟨rfl, rfl⟩ | hf' := hcases f fr hf'
  · exact .of_alike h ho ha (fun p hpar => ⟨_, Array.getElem?_eq_getElem (hp p hpar)⟩) (.refl fr) hf
  · exact .of_alike h ho ha (fun p => h.ordered.exists_parent hf') (.refl fr) (h.admits f fr hf')

theorem calls_subset (h : s.Framed c) {f : FrameId} {frame : Frame}
    (hf : s.frame? f = some frame) : (s.callStack f).trail.entries ⊆ c.blockNames := by
  refine h.ordered.induction (P := fun f _ => (s.callStack f).trail.entries ⊆ c.blockNames)
    (fun f frame hf ih => ?_) hf
  rw [callStack_eq h.ordered hf]
  have hadmits := h.admits f frame hf
  split
  next calls hk =>
    rw [Admits, hk] at hadmits
    obtain ⟨p, name, hp, hname, hcalls⟩ := hadmits
    obtain ⟨outer, hpf⟩ := h.ordered.exists_parent hf hp
    rw [hcalls]
    exact List.append_subset.2 ⟨ih p outer hp hpf, by simpa using hname⟩
  · cases hp : frame.parent with
    | none => simp
    | some p =>
      obtain ⟨outer, hpf⟩ := h.ordered.exists_parent hf hp
      exact ih p outer hp hpf

/-- Every expansion that a frame lies in has added one name. -/
theorem length_calls (h : s.Framed c) {f : FrameId} {frame : Frame}
    (hf : s.frame? f = some frame) :
    (s.callStack f).trail.entries.length = (s.expansions f).length := by
  refine h.ordered.induction
    (P := fun f _ => (s.callStack f).trail.entries.length = (s.expansions f).length)
    (fun f frame hf ih => ?_) hf
  have hadmits := h.admits f frame hf
  rw [Admits] at hadmits
  rw [callStack_eq h.ordered hf, expansions_eq h.ordered hf]
  split
  next calls hk =>
    rw [hk] at hadmits
    obtain ⟨p, name, hp, -, hcalls⟩ := hadmits
    obtain ⟨outer, hpf⟩ := h.ordered.exists_parent hf hp
    rw [hcalls, hp, List.length_append, List.length_singleton, ih p outer hp hpf]
    rfl
  · cases hp : frame.parent with
    | none => rfl
    | some p =>
      obtain ⟨outer, hpf⟩ := h.ordered.exists_parent hf hp
      exact ih p outer hp hpf

/-- Expansions lie no deeper in one another than there are names of blocks. -/
theorem length_expansions_le (h : s.Framed c) {f : FrameId} {frame : Frame}
    (hf : s.frame? f = some frame) : (s.expansions f).length ≤ c.blockNames.dedup.length := by
  rw [← h.length_calls hf]
  refine (s.callStack f).trail.nodup.length_le_of_subset fun name hname => ?_
  exact List.mem_dedup.2 (h.calls_subset hf hname)

end Framed

end Resolution

end Folio
