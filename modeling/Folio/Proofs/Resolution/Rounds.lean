import Folio.Proofs.Resolution.Saturation

/-!
# Passes visit by visit

`Run.rounds` lists the steps of a number of passes: a pass begins, and then come its visits. If
passes find all texts, the steps of as many passes lead to the same end (`Run.Passes.complete`).
Between any two steps texts are added and none is replaced (`Run.steps_add`), so the order of the
visits does not matter for that.
-/

namespace Folio

open Resolution

namespace Run

variable {s : Resolution} {vs : List Visit}

/-- A step of a pass: it begins, or a visit is made. -/
def findStep : Option Visit → Run Unit
  | none => modify fun s => { s with unresolved := [] }
  | some v => findVisit v

/-- The steps of a number of passes. -/
def rounds (vs : List Visit) : Nat → List (Option Visit)
  | 0 => []
  | n + 1 => none :: (vs.map some ++ rounds vs n)

theorem mem_of_some_mem_rounds {n : Nat} {v : Visit} (h : some v ∈ rounds vs n) : v ∈ vs := by
  induction n with
  | zero => cases h
  | succ n ih =>
    rcases List.mem_cons.1 h with h | h
    · cases h
    · rcases List.mem_append.1 h with h | h
      · obtain ⟨w, hw, heq⟩ := List.mem_map.1 h
        cases heq
        exact hw
      · exact ih h

/-- Steps add texts in the places of their visits, whichever they are. -/
theorem steps_add (h : s.Laid vs) (hc : s.Consistent vs) {steps : List (Option Visit)}
    (hsteps : ∀ v, some v ∈ steps → v ∈ vs) :
    Ends ResolveError.Multiline (steps.forM findStep) s fun _ s' =>
      s.Adds s' ∧ s'.Consistent vs ∧ ∀ p text, s'.textIn? p = some text →
        s.textIn? p = some text ∨ ∃ v ∈ vs, s.place? v = some p := by
  refine Ends.forM (I := fun t => s.Adds t ∧ t.Consistent vs ∧ ∀ p text, t.textIn? p = some text →
    s.textIn? p = some text ∨ ∃ v ∈ vs, s.place? v = some p) (fun step hstep t ⟨ha, hc, hp⟩ => ?_)
    ⟨.refl s, hc, fun _ _ => .inl⟩
  cases step with
  | none =>
    have hcleared := Adds.of_unresolved t []
    exact ⟨ha.trans hcleared, hc.adds hcleared fun _ _ _ => id, hp⟩
  | some v =>
    have hv := hsteps v hstep
    have hl := h.adds ha
    change Ends _ (findVisit v) t _
    rw [findVisit_iff (hl.ready v hv) (hl.sighted v hv)]
    refine ⟨fun e he => broken?_multiline he, fun hb => ?_⟩
    obtain ⟨ha', hc'⟩ := hl.find hc hv hb
    refine ⟨ha.trans ha', hc', fun p text ht => ?_⟩
    rcases hl.textIn?_find hv ht with ht | hplace
    · exact hp p text ht
    · exact .inr ⟨v, hv, (ha.settled.place? v).symm.trans hplace⟩

/-- A pass is its steps. -/
theorem steps_of_passed {s' s'' : Resolution} (h : s.Passed vs s') {n : Nat}
    (hn : After False ((rounds vs n).forM findStep) s' fun _ t => t = s'') :
    After False ((rounds vs (n + 1)).forM findStep) s fun _ t => t = s'' := by
  have hmap : (vs.map some).forM findStep = vs.forM findVisit := List.forM_map ..
  rw [rounds, After.forM_cons]
  change After False ((vs.map some ++ rounds vs n).forM findStep) { s with unresolved := [] } _
  rw [After.forM_append, hmap]
  exact h.visits.mono fun _ _ heq => heq ▸ hn

namespace Passes

variable {last : Option Nat} {r : EStateM.Result ResolveError Resolution Unit}

/-- Passes that come to their end have found all texts. -/
theorem complete (h : Passes last s r) (hs : s.Sought vs) {s' : Resolution} (hr : r = .ok () s') :
    s.Adds s' ∧ s'.Sought vs ∧ (∀ v ∈ vs, s'.lacks v = false) ∧
      ∃ n, After False ((rounds vs n).forM findStep) s fun _ t => t = s' := by
  induction h with
  | fails | stuck => cases hr
  | done h =>
    cases hr
    obtain ⟨hn, hpassed⟩ := (pass_ends hs).of_ok h
    refine ⟨hpassed.adds, hpassed.sought, fun v hv => ?_, 1, steps_of_passed hpassed rfl⟩
    have hcount := hpassed.count
    rw [← hn, eq_comm, List.countP_eq_zero] at hcount
    simpa using hcount v hv
  | again h _ _ _ ih =>
    obtain ⟨-, hpassed⟩ := (pass_ends hs).of_ok h
    obtain ⟨hadds, hsought, hall, n, hn⟩ := ih hpassed.sought hr
    exact ⟨hpassed.adds.trans hadds, hsought, hall, n + 1, steps_of_passed hpassed hn⟩

/-- Passes fail because of a line break in a title, or because texts are missing. -/
theorem error (h : Passes last s r) (hs : s.Sought vs) {e : ResolveError} {s' : Resolution}
    (hr : r = .error e s') : e.Multiline ∨ ∃ us, e = .unresolved us := by
  induction h with
  | fails h =>
    cases hr
    exact .inl ((pass_ends hs).of_error h)
  | done => cases hr
  | stuck =>
    cases hr
    exact .inr ⟨_, rfl⟩
  | again h _ _ _ ih => exact ih ((pass_ends hs).of_ok h).2.sought hr

end Passes

end Run

end Folio
