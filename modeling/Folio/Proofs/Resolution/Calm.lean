import Folio.Proofs.Resolution.Tally

/-!
# Steps that only look at texts

Reading links, tags and texts opens frames for the values in them and sets the states of their
parts. It is *calm* (`Resolution.Calm`): the registry, the documents and the frames that are there
stay as they are, and no id is given out.
-/

namespace Folio

open Resolution

/-- Only states and frames behind the others are new. -/
structure Resolution.Calm (s s' : Resolution) : Prop where
  options : s'.options = s.options
  registry : s'.registry = s.registry
  documents : s'.documents = s.documents
  frame : ∀ f frame, s.frame? f = some frame → s'.frame? f = some frame
  tally : s'.tally = s.tally

namespace Resolution.Calm

variable {s s' s'' : Resolution}

theorem refl (s : Resolution) : s.Calm s := ⟨rfl, rfl, rfl, fun _ _ h => h, rfl⟩

theorem trans (h : s.Calm s') (h' : s'.Calm s'') : s.Calm s'' where
  options := h'.options.trans h.options
  registry := h'.registry.trans h.registry
  documents := h'.documents.trans h.documents
  frame f frame hf := h'.frame f frame (h.frame f frame hf)
  tally := h'.tally.trans h.tally

/-- A new frame that counts nothing. -/
theorem push (s : Resolution) {frame : Frame} (hk : ∀ typ, frame.kind.ordinals typ = {}) :
    s.Calm { s with frames := s.frames.push frame } where
  options := rfl
  registry := rfl
  documents := rfl
  frame f fr hf := by rw [frame?_push, if_neg (freshFrame_of_frame? hf), hf]
  tally := tally_push hk

end Resolution.Calm

/-- The step is calm. -/
def Run.Calmly {α : Type} (m : Run α) : Prop := ∀ s, After True m s fun _ s' => s.Calm s'

namespace Run

variable {α β : Type}

namespace Calmly

theorem pure (a : α) : Calmly (Pure.pure a) := fun s => .refl s

theorem bind {m : Run α} {k : α → Run β} (hm : Calmly m) (hk : ∀ a, Calmly (k a)) :
    Calmly (m >>= k) := by
  intro s
  rw [After.bind_iff]
  exact (hm s).mono fun a s' h => (hk a s').mono fun _ _ h' => h.trans h'

theorem get_bind {k : Resolution → Run β}
    (hk : ∀ s, After True (k s) s fun _ s' => s.Calm s') : Calmly (get >>= k) := by
  intro s
  rw [After.bind_iff]
  exact hk s

theorem of_get {k : Resolution → Run β} (hk : ∀ s, Calmly (k s)) : Calmly (get >>= k) :=
  get_bind fun s => hk s s

theorem fail {location : Location} {cause : Cause} : Calmly (Run.fail location cause : Run α) :=
  fun _ => trivial

end Calmly

theorem setState_calmly (f : FrameId) (key : NodeKey) (state : NodeState) :
    Calmly (setState f key state) := fun _ => ⟨rfl, rfl, rfl, fun _ _ h => h, rfl⟩

/-- A frame that is opened for a value counts nothing. -/
theorem staticFrame_calmly (f : FrameId) (binding : Binding) : Calmly (staticFrame f binding) :=
  .get_bind fun s => .push s fun _ => rfl

theorem Calmly.reading : Reading fun _ _ m => Calmly m where
  pure := .pure
  bind := .bind
  of_get := .of_get
  fail _ := .fail
  openValue name _ _ hk := by
    refine .bind (.get_bind fun s => .refl s) fun b => .bind ?_ fun binding => ?_
    · cases b with
      | none => exact .fail
      | some binding => exact .pure binding
    · exact (staticFrame_calmly _ binding).bind fun inner => hk binding inner

theorem registerText_calmly (f : FrameId) (body : InlineText) : Calmly (registerText f body) :=
  Calmly.reading.registerText (fun _ => setState_calmly) f body

end Run

end Folio
