import Folio.Proofs.Resolution.Proper
import Folio.Proofs.Resolution.Walk

/-!
# Tallies

Labeled nodes are counted twice, when ids are given to them and when they claim slots. Where the
counting stands is kept in different places then: ids in the frames, slots in the ranges that are
in use there. A `Tally` is what both come to. It holds, for every frame and label type, the ids
that were given out, and `Resolution.count` is how a visit changes it: it counts on in the frame
that counts its type, and a labeled node starts again from its own id in the frame inside.

`Resolution.tally` is the tally that the frames hold, and `Run.nextId_spec` says that asking for the
next id counts on in it.
-/

namespace Folio

open Resolution

/-- The ids that were given out in each frame for each label type. -/
abbrev Tally := FrameId → String → Ordinals

namespace Tally

variable (T : Tally)

/-- Sets the ids of a label type in a frame. -/
def put (f : FrameId) (typ : String) (ids : Ordinals) : Tally :=
  fun g t => if g = f ∧ t = typ then ids else T g t

/-- The ids of a label type after the next one, in the frame that counts them if there is one. -/
def next (owner : Option FrameId) (typ : String) : Ordinals :=
  ((owner.map (T · typ)).getD {}).next

/-- Counts on in the frame that counts a label type, if there is one. -/
def advance (owner : Option FrameId) (typ : String) : Tally :=
  match owner with
  | some f => T.put f typ (T.next owner typ)
  | none => T

theorem put_of_ne {f g : FrameId} (h : g ≠ f) (typ : String) (ids : Ordinals) :
    T.put f typ ids g = T g := by
  funext t
  simp [put, h]

theorem advance_of_ne {owner : Option FrameId} {g : FrameId} (h : owner ≠ some g)
    (typ : String) : T.advance owner typ g = T g := by
  cases owner with
  | none => rfl
  | some f => exact T.put_of_ne (by rintro rfl; exact h rfl) typ _

end Tally

namespace Resolution

/-- The frame that counts a label type, as seen from another one. -/
def owner? (s : Resolution) (f : FrameId) (typ : String) : Option FrameId :=
  (s.countingFrame? f typ).map Prod.fst

/-- The next id of a label type, as seen from a frame. -/
def nextId (s : Resolution) (T : Tally) (f : FrameId) (typ : String) : LabelId :=
  (T.next (s.owner? f typ) typ).id typ

/-- The tally after a visit. -/
def count (s : Resolution) (T : Tally) : Visit → Tally
  | .heading f h _ inner =>
    let typ := h.typeIn s.options
    (T.advance (s.owner? f typ) typ).put inner typ (.below (s.nextId T f typ))
  | .embedding f _ _ _ => T.advance (s.owner? f s.options.sectionType) s.options.sectionType
  | _ => T

/-- The entry of a visit, and the id that it is counted under, satisfy `P`. -/
def CountedAt (s : Resolution) (P : EntryId → LabelId → Prop) (T : Tally) : Visit → Prop
  | .heading f h entry _ => P entry (s.nextId T f (h.typeIn s.options))
  | _ => True

/-- The entries on a walk, and the ids that they are counted under, satisfy `P`. -/
def Counted (s : Resolution) (P : EntryId → LabelId → Prop) : Tally → List Visit → Prop
  | _, [] => True
  | T, v :: vs => s.CountedAt P T v ∧ s.Counted P (s.count T v) vs

variable {s s' : Resolution} {P Q : EntryId → LabelId → Prop} {T : Tally}

theorem counted_append {vs ws : List Visit} :
    s.Counted P T (vs ++ ws) ↔ s.Counted P T vs ∧ s.Counted P (vs.foldl s.count T) ws := by
  induction vs generalizing T with
  | nil => simp [Counted]
  | cons v vs ih => simp [Counted, ih, and_assoc]

theorem CountedAt.imp {v : Visit} (h : s.CountedAt P T v)
    (hi : ∀ e id, v.entry? = some e → P e id → Q e id) : s.CountedAt Q T v := by
  cases v with
  | heading f heading entry inner => exact hi entry _ rfl h
  | _ => trivial

theorem Counted.imp {vs : List Visit} (h : s.Counted P T vs)
    (hi : ∀ v ∈ vs, ∀ e id, v.entry? = some e → P e id → Q e id) : s.Counted Q T vs := by
  induction vs generalizing T with
  | nil => trivial
  | cons v vs ih =>
    exact ⟨h.1.imp (hi v (by simp)), ih h.2 fun w hw => hi w (by simp [hw])⟩

/-- What is counted in the same way twice gets one id for both. -/
theorem Counted.exists_id {vs : List Visit} (h : s.Counted P T vs) (h' : s.Counted Q T vs)
    {v : Visit} (hv : v ∈ vs) {e : EntryId} (he : v.entry? = some e) : ∃ id, P e id ∧ Q e id := by
  induction vs generalizing T with
  | nil => simp at hv
  | cons w vs ih =>
    rcases List.mem_cons.1 hv with rfl | hv
    · cases v with
      | heading f heading entry inner =>
        cases he
        exact ⟨_, h.1, h'.1⟩
      | _ => cases he
    · exact ih h.2 h'.2 hv

/-! ## Frames that come later do not count -/

/-- The frame that counts a label type stays the same. -/
theorem owner?_of_alike (ho : s'.Ordered) (ha : ∀ f frame, s.frame? f = some frame →
    ∃ frame', s'.frame? f = some frame' ∧ frame.Alike frame') {f : FrameId} {frame : Frame}
    (hf : s.frame? f = some frame) (typ : String) : s'.owner? f typ = s.owner? f typ := by
  have hs := ho.of_alike ha
  refine hs.induction (P := fun f _ => s'.owner? f typ = s.owner? f typ) (fun f frame hf ih => ?_) hf
  obtain ⟨frame', hf', hp, -, -, hk⟩ := ha f frame hf
  unfold owner? at ih ⊢
  rw [countingFrame?_eq hs hf, countingFrame?_eq ho hf', hp, hk.counts_eq]
  split
  · rfl
  · cases hpar : frame.parent with
    | none => rfl
    | some p =>
      obtain ⟨outer, hpf⟩ := hs.exists_parent hf hpar
      exact ih p outer hpar hpf

end Resolution

/-! ## The tally in the frames -/

/-- The ids of a label type that were given out in a frame. -/
def FrameKind.ordinals (kind : FrameKind) (typ : String) : Ordinals :=
  match kind with
  | .document ids => (ids.lookup typ).getD {}
  | .subRange t ids _ => if typ = t then ids else {}
  | _ => {}

namespace Resolution

/-- The ids that were given out in the frames. -/
def tally (s : Resolution) : Tally :=
  fun f typ => ((s.frame? f).map fun frame => frame.kind.ordinals typ).getD {}

variable {s : Resolution}

theorem tally_of_frame? {f : FrameId} {frame : Frame} (hf : s.frame? f = some frame)
    (typ : String) : s.tally f typ = frame.kind.ordinals typ := by
  simp [tally, hf]

theorem tally_freshFrame (typ : String) : s.tally s.freshFrame typ = {} := by
  simp [tally, frame?, freshFrame]

/-- A new frame in which nothing was given out. -/
theorem tally_push {frame : Frame} (hk : ∀ typ, frame.kind.ordinals typ = {}) :
    tally { s with frames := s.frames.push frame } = s.tally := by
  funext f typ
  unfold tally
  rw [frame?_push]
  split
  next heq =>
    rw [heq]
    exact (hk typ).trans (tally_freshFrame typ).symm
  · rfl

/-- A new frame inside a labeled node. -/
theorem tally_push_subRange {frame : Frame} {typ : String} {ids : Ordinals}
    (hk : frame.kind = .subRange typ ids none) :
    tally { s with frames := s.frames.push frame } = s.tally.put s.freshFrame typ ids := by
  funext f t
  unfold tally Tally.put
  rw [frame?_push]
  by_cases hf : f = s.freshFrame
  · subst hf
    rw [if_pos rfl, Option.map_some, Option.getD_some, hk]
    by_cases ht : t = typ
    · simp [FrameKind.ordinals, ht]
    · rw [if_neg (by simp [ht])]
      simp [FrameKind.ordinals, ht, frame?, freshFrame]
  · rw [if_neg hf, if_neg (by simp [hf])]

/-- The ids of a label type change in one frame. -/
theorem tally_modifyKind {f : FrameId} {frame : Frame} (hf : s.frame? f = some frame)
    {kind : FrameKind} {typ : String} {ids : Ordinals} (hself : kind.ordinals typ = ids)
    (hother : ∀ t, t ≠ typ → kind.ordinals t = frame.kind.ordinals t) :
    (s.modifyKind f fun _ => kind).tally = s.tally.put f typ ids := by
  funext g t
  unfold tally Tally.put
  rw [frame?_modifyKind]
  by_cases hg : g = f
  · subst hg
    rw [if_pos rfl, hf]
    by_cases ht : t = typ
    · simp [ht, hself]
    · simp [ht, hother t ht, hf]
  · rw [if_neg hg, if_neg (by simp [hg])]

end Resolution

namespace Run

/-- Asking for the next id of a label type counts on. -/
theorem nextId_spec {s : Resolution} (f : FrameId) (typ : String) :
    After True (nextId f typ) s fun ids s' => ids = s.tally.next (s.owner? f typ) typ ∧
      s'.tally = s.tally.advance (s.owner? f typ) typ := by
  unfold nextId
  rw [After.bind_iff, After.get_iff]
  dsimp only
  split
  next owner parent document scope ids h =>
    have howner : s.owner? f typ = some owner := by rw [owner?, h]; rfl
    have hf := (countingFrame?_eq_some h).1
    have hnext : ((ids.lookup typ).getD {}).next = s.tally.next (some owner) typ := by
      change _ = (s.tally owner typ).next
      rw [tally_of_frame? hf]
      rfl
    rw [After.bind_iff, After.set_iff, howner]
    refine ⟨hnext, tally_modifyKind hf ?_ fun t ht => ?_⟩
    · rw [← hnext]
      simp [FrameKind.ordinals]
    · simp [FrameKind.ordinals, List.lookup_cons, beq_false_of_ne ht]
  next owner parent document scope t ids range h =>
    have howner : s.owner? f typ = some owner := by rw [owner?, h]; rfl
    obtain ⟨hf, hc⟩ := countingFrame?_eq_some h
    obtain rfl : t = typ := by simpa [FrameKind.counts] using hc
    have hnext : ids.next = s.tally.next (some owner) t := by
      change _ = (s.tally owner t).next
      rw [tally_of_frame? hf]
      simp [FrameKind.ordinals]
    rw [After.bind_iff, After.set_iff, howner]
    refine ⟨hnext, tally_modifyKind hf ?_ fun t' ht => ?_⟩
    · rw [← hnext]
      simp [FrameKind.ordinals]
    · simp [FrameKind.ordinals, ht]
  next hdocument hsub =>
    have howner : s.owner? f typ = none := by
      unfold owner?
      cases hc : s.countingFrame? f typ with
      | none => rfl
      | some p =>
        obtain ⟨owner, parent, document, scope, kind⟩ := p
        obtain ⟨-, hcounts⟩ := countingFrame?_eq_some hc
        cases kind with
        | document ids => exact (hdocument _ _ _ _ _ hc).elim
        | subRange t ids range => exact (hsub _ _ _ _ _ _ _ hc).elim
        | block | static => simp [FrameKind.counts] at hcounts
    rw [howner]
    exact ⟨rfl, rfl⟩

end Run

end Folio
