import Folio.Collection

/-!
# Steps that read texts

Reading links, tags and texts comes down to a few steps: looking at what is known, failing, and
opening a frame for the text of a value. What holds of these, of steps one after another, and of
nothing being done (`Run.Reading`), holds of all reading (`Run.Reading.evaluateTag`), and, if it also
holds of setting states, of registering texts (`Run.Reading.registerText`).
-/

namespace Folio

open Resolution

/-- Does an error say that the anchor of a labeled node is taken? -/
def Cause.TakenAnchor : Cause → Prop
  | duplicate .anchor .. => True
  | _ => False

namespace Run

/-- The tag for an expansion, with its substitutions replaced. -/
def expansionTag (f : FrameId) (location : Location) (tag : Option String) : Run (Option String) :=
  tag.mapM fun tag => do return (← evaluateTag f location tag).1

/-- Sorts of steps, one for each frame, that reading stays in. No text is at fault if an anchor is
taken. -/
structure Reading (P : FrameId → (α : Type) → Run α → Prop) : Prop where
  pure {f : FrameId} {α : Type} (a : α) : P f α (Pure.pure a)
  bind {f : FrameId} {α β : Type} {m : Run α} {k : α → Run β} (hm : P f α m)
    (hk : ∀ a, P f β (k a)) : P f β (m >>= k)
  of_get {f : FrameId} {α : Type} {k : Resolution → Run α} (hk : ∀ s, P f α (k s)) :
    P f α (get >>= k)
  fail {f : FrameId} {α : Type} {location : Location} {cause : Cause} (h : ¬cause.TakenAnchor) :
    P f α (Run.fail location cause)
  /-- A value is looked up, and its text is handled in a frame that is opened for it. -/
  openValue {f : FrameId} {α : Type} {location : Location} {cause : Cause} (name : String)
    {k : Binding → FrameId → Run α} (h : ¬cause.TakenAnchor)
    (hk : ∀ binding inner, P inner α (k binding inner)) : P f α (do
      let binding ← orFail location cause (← lookupValue f name)
      let inner ← staticFrame f binding
      k binding inner)

namespace Reading

variable {P : FrameId → (α : Type) → Run α → Prop} {α β : Type}

theorem orFail (hP : Reading P) (f : FrameId) {location : Location} {cause : Cause}
    (h : ¬cause.TakenAnchor) (x : Option α) : P f α (Run.orFail location cause x) := by
  cases x with
  | none => exact hP.fail h
  | some a => exact hP.pure a

theorem ofLink (hP : Reading P) (f : FrameId) {location : Location} (x : Except LinkError α) :
    P f α (Run.ofLink location x) := by
  cases x with
  | error e => exact hP.fail not_false
  | ok a => exact hP.pure a

theorem mapM (hP : Reading P) (f : FrameId) {k : α → Run β} (xs : List α)
    (hk : ∀ x ∈ xs, P f β (k x)) : P f (List β) (xs.mapM k) := by
  induction xs with
  | nil => exact hP.pure []
  | cons x xs ih =>
    rw [List.mapM_cons]
    refine hP.bind (hk x (by simp)) fun _ => ?_
    exact hP.bind (ih fun y hy => hk y (by simp [hy])) fun _ => hP.pure _

theorem forM (hP : Reading P) (f : FrameId) {k : α → Run PUnit} (xs : List α)
    (hk : ∀ x ∈ xs, P f PUnit (k x)) : P f PUnit (xs.forM k) := by
  induction xs with
  | nil => exact hP.pure PUnit.unit
  | cons x xs ih =>
    change P f PUnit (k x >>= fun _ => xs.forM k)
    exact hP.bind (hk x (by simp)) fun _ => ih fun y hy => hk y (by simp [hy])

/-! ## Texts and links -/

theorem staticTextWithin (hP : Reading P) (fuel : Nat) (f : FrameId) (body : InlineText) :
    P f String (Run.staticTextWithin fuel f body) := by
  induction fuel generalizing f body with
  | zero => exact hP.fail not_false
  | succ fuel ih =>
    unfold Run.staticTextWithin
    refine hP.bind (hP.mapM f body.parts fun part _ => ?_) fun _ => hP.pure _
    rcases part with text | ⟨key, aspect, link⟩ | ⟨key, name⟩ | name | tag
    · exact hP.pure text
    · exact hP.fail not_false
    · exact hP.openValue name not_false fun binding inner => ih inner binding.body
    · refine hP.of_get fun s => hP.orFail f ?_ _
      exact not_false
    · exact hP.fail not_false

theorem staticText (hP : Reading P) (f : FrameId) (body : InlineText) :
    P f String (Run.staticText f body) := hP.of_get fun _ => hP.staticTextWithin _ f body

theorem readLink (hP : Reading P) (f : FrameId) (location : Location) (text : String) :
    P f Link (Run.readLink f location text) :=
  hP.bind (hP.ofLink _ _) fun _ => hP.of_get fun _ => hP.ofLink _ _

theorem readEmbedding (hP : Reading P) (f : FrameId) (location : Location) (text : String) :
    P f Link (Run.readEmbedding f location text) := by
  refine hP.bind (hP.ofLink _ _) fun link => ?_
  dsimp only
  split
  · exact hP.bind (hP.fail not_false) fun _ => hP.of_get fun _ => hP.ofLink _ _
  · exact hP.of_get fun _ => hP.ofLink _ _

/-- Registering a text sets states as well, those for values in the frame around. -/
theorem registerTextWithin (hP : Reading P)
    (hset : ∀ f g key state, P f Unit (setState g key state)) (fuel : Nat) (f : FrameId)
    (body : InlineText) : P f Unit (Run.registerTextWithin fuel f body) := by
  induction fuel generalizing f body with
  | zero => exact hP.fail not_false
  | succ fuel ih =>
    unfold Run.registerTextWithin
    refine hP.forM f body.parts fun part _ => ?_
    rcases part with text | ⟨key, aspect, link⟩ | ⟨key, name⟩ | name | tag
    · exact hP.pure _
    · exact hP.bind (hP.readLink f body.location link) fun _ => hset f f key _
    · exact hP.openValue name not_false fun binding inner =>
        hP.bind (hset inner f key _) fun _ => ih inner binding.body
    · refine hP.of_get fun s => hP.bind (hP.orFail f ?_ _) fun _ => hP.pure _
      exact not_false
    · exact hP.pure _

theorem registerText (hP : Reading P) (hset : ∀ f g key state, P f Unit (setState g key state))
    (f : FrameId) (body : InlineText) : P f Unit (Run.registerText f body) :=
  hP.of_get fun _ => hP.registerTextWithin hset _ f body

/-! ## Tags -/

theorem substitution (hP : Reading P) (f : FrameId) (location : Location) (name : String) :
    P f String (Run.substitution f location name) := by
  refine hP.of_get fun s => ?_
  split
  · exact hP.pure _
  · exact hP.openValue name not_false fun binding inner =>
      hP.bind (hP.staticText inner binding.body) fun _ => hP.pure _

theorem substitute (hP : Reading P) (f : FrameId) (location : Location) (inDocument : Bool)
    (tag : String) (name : Option (List Char)) (read : String × Bool) (cs : List Char) :
    P f (String × Bool) (Run.substitute f location inDocument tag name read cs) := by
  induction cs generalizing name read with
  | nil =>
    cases name with
    | none => exact hP.pure read
    | some name => exact hP.fail not_false
  | cons c cs ih =>
    obtain ⟨text, explicit⟩ := read
    cases name with
    | none =>
      unfold Run.substitute
      split
      · exact ih _ _
      · split
        · exact hP.fail not_false
        · exact ih _ _
    | some name =>
      unfold Run.substitute
      split
      · exact ih _ _
      · split
        · exact hP.fail not_false
        · refine hP.bind (hP.substitution f location _) fun text => ?_
          dsimp only
          split
          · exact hP.bind (hP.fail not_false) fun _ => ih _ _
          · exact ih _ _

theorem evaluateTag (hP : Reading P) (f : FrameId) (location : Location) (tag : String) :
    P f (String × Bool) (Run.evaluateTag f location tag) :=
  hP.of_get fun _ => hP.substitute _ _ _ _ _ _ _

theorem expansionTag (hP : Reading P) (f : FrameId) (location : Location) (tag : Option String) :
    P f (Option String) (Run.expansionTag f location tag) := by
  cases tag with
  | none => exact hP.pure none
  | some tag =>
    exact hP.bind (hP.bind (hP.evaluateTag f location tag) fun _ => hP.pure _) fun _ => hP.pure _

end Reading

end Run

end Folio
