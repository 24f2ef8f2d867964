import Folio.Proofs.Resolution.Supplied
import Folio.Proofs.Resolution.Tour

/-!
# What a visit finds

The passes that find texts go along the walks too (`Run.find_tour`). What a visit does to what is
known can be said without the steps: if its text can be written out, the text is kept in its place,
and otherwise it is noted as missing (`Resolution.find`). Only a title with a line break stops the
pass (`Run.findVisit_iff`).
-/

namespace Folio

open Resolution

/-- The text that is found at a visit, and where it stands. -/
def Visit.inscription? : Visit → Option (Location × InlineText)
  | .heading _ h _ _ => some (h.location, h.title)
  | .term _ _ location content => some (location, content)
  | _ => none

namespace Resolution

/-- A text is kept in a place. -/
def store (s : Resolution) (p : TextPlace) (text : String) : Resolution :=
  match p with
  | .title entry =>
    { s with registry := s.registry.modifyEntry entry fun e => { e with title := some text } }
  | .term scope key => { s with states := ((scope, key), .term (some text)) :: s.states }

/-- What is written out at a visit, if it has a text that is found. -/
def written? (s : Resolution) (v : Visit) : Option (Except ResolveError String) :=
  v.inscription?.map fun p => s.renderText v.frame p.2

/-- The text that a visit finds. -/
def told? (s : Resolution) (v : Visit) : Option String :=
  match s.written? v with
  | some (.ok text) => some (Text.trim text)
  | _ => none

/-- What is noted at a visit whose text cannot be written out. -/
def missing? (s : Resolution) (v : Visit) : Option Unresolved :=
  match v.inscription?, s.written? v with
  | some (location, _), some (.error e) =>
    some { document := s.documentOf v.frame, location, message := e.message }
  | _, _ => none

/-- What stops a pass at a visit. -/
def broken? (s : Resolution) : Visit → Option ResolveError
  | .heading f h entry inner =>
    match s.told? (.heading f h entry inner) with
    | some title =>
      if title.toList.contains '\n' then some (.located h.location (.multilineTitle title))
      else none
    | none => none
  | _ => none

/-- What is known after a visit. -/
def find (s : Resolution) (v : Visit) : Resolution :=
  match s.place? v, s.told? v with
  | some p, some text => s.store p text
  | _, _ => { s with unresolved := s.unresolved ++ (s.missing? v).toList }

theorem isSome_place? (s : Resolution) (v : Visit) :
    (s.place? v).isSome = v.inscription?.isSome := by
  cases v <;> rfl

section

variable {s : Resolution} {v : Visit} {location : Location} {t : InlineText} {text : String}
  {e : ResolveError}

theorem told?_of_ok (hi : v.inscription? = some (location, t))
    (hr : s.renderText v.frame t = .ok text) : s.told? v = some (Text.trim text) := by
  simp [told?, written?, hi, hr]

theorem told?_of_error (hi : v.inscription? = some (location, t))
    (hr : s.renderText v.frame t = .error e) : s.told? v = none := by
  simp [told?, written?, hi, hr]

theorem missing?_of_ok (hi : v.inscription? = some (location, t))
    (hr : s.renderText v.frame t = .ok text) : s.missing? v = none := by
  simp [missing?, written?, hi, hr]

theorem missing?_of_error (hi : v.inscription? = some (location, t))
    (hr : s.renderText v.frame t = .error e) : s.missing? v =
      some { document := s.documentOf v.frame, location, message := e.message } := by
  simp [missing?, written?, hi, hr]

theorem find_of_told {p : TextPlace} (hp : s.place? v = some p) (ht : s.told? v = some text) :
    s.find v = s.store p text := by
  simp [find, hp, ht]

theorem find_of_missing {u : Unresolved} (ht : s.told? v = none) (hu : s.missing? v = some u) :
    s.find v = { s with unresolved := s.unresolved ++ [u] } := by
  simp [find, ht, hu]

theorem find_of_inscription?_eq_none (hi : v.inscription? = none) : s.find v = s := by
  simp [find, told?, missing?, written?, hi]

end

/-- A visit has no text, or it finds it, or it misses it. -/
theorem find_cases (s : Resolution) (v : Visit) :
    (s.place? v = none ∧ s.told? v = none ∧ s.missing? v = none ∧ s.find v = s) ∨
    (∃ p text, s.place? v = some p ∧ s.told? v = some text ∧ s.missing? v = none ∧
      s.find v = s.store p text) ∨
    ∃ p u, s.place? v = some p ∧ s.told? v = none ∧ s.missing? v = some u ∧
      s.find v = { s with unresolved := s.unresolved ++ [u] } := by
  have hplace := s.isSome_place? v
  cases hi : v.inscription? with
  | none =>
    rw [hi, Option.isSome_none, Option.isSome_eq_false_iff, Option.isNone_iff_eq_none] at hplace
    refine .inl ⟨hplace, ?_, ?_, find_of_inscription?_eq_none hi⟩ <;>
      simp [told?, missing?, written?, hi]
  | some i =>
    rw [hi, Option.isSome_some, Option.isSome_iff_exists] at hplace
    obtain ⟨p, hp⟩ := hplace
    cases hr : s.renderText v.frame i.2 with
    | ok text =>
      have ht := told?_of_ok hi hr
      exact .inr (.inl ⟨p, _, hp, ht, missing?_of_ok hi hr, find_of_told hp ht⟩)
    | error e =>
      have ht := told?_of_error hi hr
      have hu := missing?_of_error hi hr
      exact .inr (.inr ⟨p, _, hp, ht, hu, find_of_missing ht hu⟩)

end Resolution

namespace Run

variable {R : ResolveError → Prop} {s : Resolution}

/-- Finds what there is to be found at a visit. -/
def findVisit : Visit → Run Unit
  | .text f content => checkText f content
  | .heading f h _ _ => do
    let _ ← findTitle f h
  | .embedding _ _ _ _ => pure ()
  | .expansion f key location _ => do
    let _ ← expansionState f key location
  | .term f key location content => findTerm f key location content

theorem findVisit_settled {v : Visit} (h : s.Ready v) :
    After True (findVisit v) s fun _ s' => s.Settled s' := by
  cases v with
  | text f content => exact (checkText_spec f content).mono fun _ _ h => h ▸ .refl s
  | heading f hd entry inner =>
    unfold findVisit
    rw [After.bind_iff]
    exact (findTitle_spec h.1).mono fun _ _ h => h.2
  | embedding => exact .refl s
  | expansion f key location inner =>
    obtain ⟨⟨body, hst⟩, -⟩ := h
    unfold findVisit
    exact After.bind_iff.2 ((expansionState_iff hst).2 (.refl s))
  | term f key location content => exact findTerm_spec f key location content

/-- Finding texts makes visits. -/
theorem find_tour : Tour findVisit findTitle findNodes findWithin where
  nil _ _ := by rw [findNodes]
  text _ _ _ _ := by rw [findNodes, findNode, findVisit]
  labeled _ _ _ _ _ := by rw [findNodes, findNode, bind_assoc]
  embedding _ _ _ _ _ _ _ := by rw [findNodes, findNode, findVisit]
  expansion _ _ _ _ _ _ _ _ := by rw [findNodes, findNode, bind_assoc]
  term _ _ _ _ _ _ _ := by rw [findNodes, findNode, findVisit]
  zero _ _ := by rw [findWithin]
  succ _ := by funext f ns; rw [findWithin]
  visit_heading _ _ _ _ := rfl
  visit_expansion _ _ _ _ := rfl
  keeps _ _ h := (findVisit_settled h).mono fun _ _ h => h.keeps
  heading_spec _ _ _ _ _ h := (findTitle_spec h).mono fun _ _ h => h.1

/-- A visit finds what is said, if nothing stops it. -/
theorem findVisit_iff {v : Visit} (hready : s.Ready v) (hsight : s.Sighted v)
    {Q : Unit → Resolution → Prop} : Ends R (findVisit v) s Q ↔
      (∀ e, s.broken? v = some e → R e) ∧ (s.broken? v = none → Q () (s.find v)) := by
  cases v with
  | text f content =>
    unfold findVisit
    rw [checkText_iff hsight, find_of_inscription?_eq_none rfl]
    simp [broken?]
  | embedding f key location link =>
    unfold findVisit
    rw [Ends.pure_iff, find_of_inscription?_eq_none rfl]
    simp [broken?]
  | expansion f key location inner =>
    obtain ⟨⟨body, hst⟩, -⟩ := hready
    unfold findVisit
    rw [Ends.bind_iff, expansionState_iff hst, Ends.pure_iff, find_of_inscription?_eq_none rfl]
    simp [broken?]
  | heading f h entry inner =>
    unfold findVisit findTitle
    rw [Ends.bind_iff, Ends.bind_iff, labeledState_iff hready.1, Ends.bind_iff,
      checkText_iff hsight, Ends.bind_iff, Ends.get_iff]
    have hi : (Visit.heading f h entry inner).inscription? = some (h.location, h.title) := rfl
    cases hr : s.renderText f h.title with
    | ok text =>
      have ht := told?_of_ok hi hr
      rw [find_of_told rfl ht]
      simp only [broken?, ht]
      split
      next hbreak => simp [Ends.bind_iff, fail]
      next hbreak => simp [store]
    | error e =>
      have ht := told?_of_error hi hr
      rw [find_of_missing ht (missing?_of_error hi hr)]
      simp [broken?, ht, noteUnresolved, Visit.frame]
  | term f key location content =>
    obtain ⟨hlegible, old, hst⟩ := hsight
    unfold findVisit findTerm
    rw [Ends.bind_iff, checkText_iff hlegible, Ends.bind_iff, Ends.get_iff]
    have hi : (Visit.term f key location content).inscription? = some (location, content) := rfl
    cases hr : s.renderText f content with
    | ok text =>
      rw [find_of_told rfl (told?_of_ok hi hr)]
      dsimp only
      rw [hst]
      simp [broken?, store, setState, Resolution.setState]
    | error e =>
      have ht := told?_of_error hi hr
      rw [find_of_missing ht (missing?_of_error hi hr)]
      simp [broken?, noteUnresolved, Visit.frame]

end Run

end Folio
