import Folio.Proofs.Resolution.Catalog
import Mathlib.Data.List.Forall2

/-!
# Frames of a document

The frames that the walk through a document comes to lie in each other, down to the frame of the
document. So ids are counted, and ranges are found, in the document itself or inside one of its
labeled nodes (`Belongs.countingFrame?`), and never in the document that embeds it.

What a frame counts does not change, so the frame that is found stays the same one
(`Keeps.countingFrame?`).
-/

namespace Folio

open Resolution

namespace Resolution

/-- A frame lies in the frame of a document. -/
inductive Belongs (s : Resolution) (d : String) : FrameId → Prop
  | top {f : FrameId} (frame : Frame) (hf : s.frame? f = some frame) (hd : frame.document = d)
    (hp : frame.parent = none) : Belongs s d f
  | inside {f g : FrameId} (frame : Frame) (hf : s.frame? f = some frame)
    (hd : frame.document = d) (hp : frame.parent = some g) (hg : Belongs s d g) : Belongs s d f

namespace Belongs

variable {s s' : Resolution} {d : String} {f inner : FrameId}

theorem frame (h : s.Belongs d f) : ∃ frame, s.frame? f = some frame ∧ frame.document = d := by
  cases h with
  | top frame hf hd => exact ⟨frame, hf, hd⟩
  | inside frame hf hd => exact ⟨frame, hf, hd⟩

theorem enter (h : s.Belongs d f) {sort : FrameKind → Prop} (hi : s.Inside f inner sort) :
    s.Belongs d inner := by
  obtain ⟨outer, frame, ho, hf, hp, hd, -⟩ := hi
  obtain ⟨outer', ho', hd'⟩ := h.frame
  cases ho.symm.trans ho'
  exact .inside frame hf (hd.trans hd') hp h

theorem keeps (h : s.Belongs d f) (hs : s.Keeps s') : s'.Belongs d f := by
  induction h with
  | top frame hf hd hp =>
    obtain ⟨frame', hf', ha⟩ := hs.frame _ frame hf
    exact .top frame' hf' (ha.2.1.trans hd) (ha.1.trans hp)
  | inside frame hf hd hp _ ih =>
    obtain ⟨frame', hf', ha⟩ := hs.frame _ frame hf
    exact .inside frame' hf' (ha.2.1.trans hd) (ha.1.trans hp) ih

theorem of_mem_framesUp (h : s.Belongs d f) {fuel : Nat} {p : FrameId × Frame}
    (hp : p ∈ s.framesUp fuel (some f)) : p.2.document = d := by
  induction h generalizing fuel with
  | top frame hf hd hparent =>
    cases fuel with
    | zero => simp [framesUp] at hp
    | succ fuel =>
      rw [framesUp, hf] at hp
      simp only [hparent, framesUp, List.mem_singleton] at hp
      exact hp ▸ hd
  | inside frame hf hd hparent _ ih =>
    cases fuel with
    | zero => simp [framesUp] at hp
    | succ fuel =>
      rw [framesUp, hf] at hp
      rcases List.mem_cons.1 hp with rfl | hp
      · exact hd
      · rw [hparent] at hp
        exact ih hp

/-- The frame that counts a label type belongs to the document. -/
theorem countingFrame? (h : s.Belongs d f) {typ : String} {owner : FrameId} {frame : Frame}
    (hc : s.countingFrame? f typ = some (owner, frame)) : frame.document = d :=
  h.of_mem_framesUp (List.mem_of_find?_eq_some hc)

end Belongs

theorem TopFrame.belongs {s : Resolution} {path : String} {info : DocumentInfo}
    (h : s.TopFrame path info) : s.Belongs path info.frame := by
  obtain ⟨frame, hf, hp, hd, -⟩ := h.frame
  exact .top frame hf hd hp

end Resolution

/-- A walk stays in its document. -/
theorem Walk.belongs {s : Resolution} {d : String} {f : FrameId} {ns : List Node}
    {vs : List Visit} (h : Walk s f ns vs) (hf : s.Belongs d f) :
    ∀ v ∈ vs, s.Belongs d v.frame := by
  induction h with
  | nil => simp
  | text _ _ _ ih | term _ _ _ _ _ _ ih | embedding _ _ _ _ _ _ _ ih =>
    exact List.forall_mem_cons.2 ⟨hf, ih hf⟩
  | labeled f h _ hi _ _ _ ihb ihr | expansion f _ _ _ _ _ _ hi _ _ ihb ihr =>
    refine List.forall_mem_cons.2 ⟨hf, fun v hv => ?_⟩
    exact (List.mem_append.1 hv).elim (ihb (hf.enter hi) v) (ihr hf v)

namespace Resolution

/-! ## The same frames later on -/

variable {s s' : Resolution}

theorem frame?_eq_none_of_size (hsize : s'.frames.size = s.frames.size)
    {f : FrameId} (hf : s.frame? f = none) : s'.frame? f = none := by
  rw [frame?, Array.getElem?_eq_none_iff] at *
  omega

/-- The frames from one outwards are alike, one by one. -/
theorem Keeps.framesUp (h : s.Keeps s') (hsize : s'.frames.size = s.frames.size) (fuel : Nat)
    (o : Option FrameId) : List.Forall₂ (fun p p' => p'.1 = p.1 ∧ Frame.Alike p.2 p'.2)
      (s.framesUp fuel o) (s'.framesUp fuel o) := by
  induction fuel generalizing o with
  | zero => cases o <;> exact .nil
  | succ fuel ih =>
    cases o with
    | none => exact .nil
    | some f =>
      unfold Resolution.framesUp
      cases hf : s.frame? f with
      | none =>
        rw [frame?_eq_none_of_size hsize hf]
        exact .nil
      | some frame =>
        obtain ⟨frame', hf', ha⟩ := h.frame f frame hf
        rw [hf']
        dsimp only
        rw [ha.1]
        exact .cons ⟨rfl, ha⟩ (ih frame.parent)

/-- The frame that counts a label type is the same one. -/
theorem Keeps.countingFrame? (h : s.Keeps s') (hsize : s'.frames.size = s.frames.size)
    (f : FrameId) (typ : String) : Option.Rel (fun p p' => p'.1 = p.1 ∧ Frame.Alike p.2 p'.2)
      (s.countingFrame? f typ) (s'.countingFrame? f typ) := by
  unfold Resolution.countingFrame? frameChain
  rw [hsize]
  have hall := h.framesUp hsize s.frames.size (some f)
  generalize s.framesUp s.frames.size (some f) = before at hall
  generalize s'.framesUp s.frames.size (some f) = after at hall
  induction hall with
  | nil => exact .none
  | @cons p p' ps ps' hp _ ih =>
    have hcounts := hp.2.2.2.2.counts_eq typ
    rw [List.find?_cons, List.find?_cons]
    dsimp only
    rw [hcounts]
    split
    · exact .some hp
    · exact ih

/-- A frame lies inside a section, and not at the top of its document. -/
def InSection (s : Resolution) (f : FrameId) : Prop :=
  ∃ owner frame, s.countingFrame? f s.options.sectionType = some (owner, frame) ∧
    ¬frame.kind.IsDocument

theorem Keeps.inSection_iff (h : s.Keeps s') (hsize : s'.frames.size = s.frames.size)
    (f : FrameId) : s'.InSection f ↔ s.InSection f := by
  have hrel := h.countingFrame? hsize f s.options.sectionType
  unfold InSection
  rw [h.options]
  cases hc : s.countingFrame? f s.options.sectionType with
  | none =>
    rw [hc] at hrel
    cases hc' : s'.countingFrame? f s.options.sectionType with
    | none => simp
    | some p => rw [hc'] at hrel; cases hrel
  | some p =>
    obtain ⟨owner, frame⟩ := p
    rw [hc] at hrel
    cases hc' : s'.countingFrame? f s.options.sectionType with
    | none => rw [hc'] at hrel; cases hrel
    | some p' =>
      obtain ⟨owner', frame'⟩ := p'
      rw [hc'] at hrel
      obtain ⟨⟨rfl, ha⟩⟩ := hrel
      have hkind : frame'.kind.IsDocument ↔ frame.kind.IsDocument := by
        have halike := ha.2.2.2
        cases hk : frame.kind <;> cases hk' : frame'.kind <;>
          simp_all [FrameKind.Alike, FrameKind.IsDocument]
      simp [hkind]

end Resolution

end Folio
