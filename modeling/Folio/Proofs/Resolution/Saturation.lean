import Folio.Proofs.Resolution.Passes

/-!
# When passes stop

The texts that are missing after a pass were missing before it (`Adds.lacks`). So if a pass misses
as many texts as the one before, it has found none: every text that could be found had been there
(`Passed.saturated`). From then on passes do nothing but note the same texts as missing again
(`Run.pass_of_saturated`).

`Run.Passes.unresolved` and `Run.Passes.complete` carry that through all passes, for those that get
stuck and for those that find all texts.
-/

namespace Folio

open Resolution

theorem Registry.modifyEntry_eq_self {r : Registry} {e : EntryId} {f : Entry → Entry}
    (h : ∀ entry, r.entryAt? e = some entry → f entry = entry) : r.modifyEntry e f = r := by
  have hentries : r.entries.modify e.index f = r.entries := by
    refine Array.ext_getElem? fun i => ?_
    rw [Array.getElem?_modify]
    split
    next heq =>
      subst heq
      cases he : r.entries[e.index]? with
      | none => rfl
      | some entry => exact congrArg some (h entry he)
    · rfl
  rw [modifyEntry, hentries]

namespace Resolution

/-- The same is known, though states may be kept in another way and other texts may be noted. -/
structure Agrees (s s' : Resolution) : Prop where
  same : s' = { s with states := s'.states, unresolved := s'.unresolved }
  stateIn?_eq : ∀ scope key, s'.stateIn? scope key = s.stateIn? scope key

/-- Every text that can be found is there. -/
def Saturated (vs : List Visit) (s : Resolution) : Prop :=
  ∀ v ∈ vs, ∀ text, s.told? v = some text → s.textAt? v = some text

variable {s s' s'' : Resolution} {vs : List Visit}

namespace Agrees

theorem refl (s : Resolution) : s.Agrees s := ⟨rfl, fun _ _ => rfl⟩

theorem trans (h : s.Agrees s') (h' : s'.Agrees s'') : s.Agrees s'' where
  same := by rw [h'.same, h.same]
  stateIn?_eq scope key := (h'.stateIn?_eq scope key).trans (h.stateIn?_eq scope key)

theorem of_unresolved (s : Resolution) (unresolved : List Unresolved) :
    s.Agrees { s with unresolved } := ⟨rfl, fun _ _ => rfl⟩

theorem registry (h : s.Agrees s') : s'.registry = s.registry := by rw [h.same]

theorem scopeOf (h : s.Agrees s') (f : FrameId) : s'.scopeOf f = s.scopeOf f := by
  rw [h.same]
  rfl

theorem state? (h : s.Agrees s') (f : FrameId) (key : NodeKey) :
    s'.state? f key = s.state? f key := by
  rw [Resolution.state?, h.scopeOf, h.stateIn?_eq]
  rfl

theorem place? (h : s.Agrees s') (v : Visit) : s'.place? v = s.place? v := by
  cases v with
  | term f key location content => rw [Resolution.place?, Resolution.place?, h.scopeOf]
  | _ => rfl

theorem textIn? (h : s.Agrees s') (p : TextPlace) : s'.textIn? p = s.textIn? p := by
  cases p with
  | title entry => rw [Resolution.textIn?, Resolution.textIn?, h.registry]
  | term scope key => rw [Resolution.textIn?, Resolution.textIn?, h.stateIn?_eq]

theorem textAt? (h : s.Agrees s') (v : Visit) : s'.textAt? v = s.textAt? v := by
  rw [Resolution.textAt?, h.place?, show s'.textIn? = s.textIn? from funext h.textIn?]
  rfl

theorem adds (h : s.Agrees s') : s.Adds s' where
  settled := by
    refine ⟨by rw [h.same], by rw [h.registry], by rw [h.registry], fun e entry he => ?_,
      fun scope key => ?_⟩
    · rw [h.registry]
      exact ⟨entry.title, he⟩
    · rw [fixed?, h.stateIn?_eq]
      rfl
  recalls f key st hst := ⟨st, (h.state? f key).trans hst, rfl⟩
  text p text ht := (h.textIn? p).trans ht

theorem renderPart (h : s.Agrees s') (value : FrameId → InlineText → Except ResolveError String)
    (f : FrameId) (location : Location) (p : Part) :
    s'.renderPart value f location p = s.renderPart value f location p := by
  have hreferenced : ∀ target, s'.referenced? target = s.referenced? target := fun target => by
    rw [h.same]
    rfl
  have haspect : ∀ e aspect, s'.aspect? e aspect = s.aspect? e aspect := fun e aspect => by
    rw [h.same]
    rfl
  cases p with
  | text => rfl
  | reference => simp only [Resolution.renderPart, h.state?, hreferenced, haspect]
  | value => simp only [Resolution.renderPart, h.state?]
  | «attribute» => simp only [Resolution.renderPart, h.adds.settled.attribute?]
  | term => simp only [Resolution.renderPart, h.registry, h.scopeOf, h.stateIn?_eq]

theorem renderTextWithin (h : s.Agrees s') (fuel : Nat) :
    s'.renderTextWithin fuel = s.renderTextWithin fuel := by
  induction fuel with
  | zero => rfl
  | succ fuel ih =>
    funext f t
    unfold Resolution.renderTextWithin
    rw [ih, show s'.renderPart _ f t.location = s.renderPart _ f t.location from
      funext (h.renderPart _ f t.location)]

theorem written? (h : s.Agrees s') (v : Visit) : s'.written? v = s.written? v := by
  unfold Resolution.written? renderText
  rw [h.renderTextWithin, h.adds.settled.frames_size]

theorem told? (h : s.Agrees s') (v : Visit) : s'.told? v = s.told? v := by
  rw [Resolution.told?, h.written?]
  rfl

theorem missing? (h : s.Agrees s') (v : Visit) : s'.missing? v = s.missing? v := by
  have hdocument : s'.documentOf v.frame = s.documentOf v.frame := by
    rw [h.same]
    rfl
  rw [Resolution.missing?, h.written?, hdocument]
  rfl

theorem saturated (h : s.Agrees s') (hs : s.Saturated vs) : s'.Saturated vs := by
  intro v hv text ht
  rw [h.told?] at ht
  rw [h.textAt?]
  exact hs v hv text ht

/-- Keeping the text that is kept already changes nothing. -/
theorem store {v : Visit} (hready : s.Ready v) (hsight : s.Sighted v) {p : TextPlace}
    (hp : s.place? v = some p) {text : String} (h : s.textIn? p = some text) :
    s.Agrees (s.store p text) := by
  cases v with
  | heading f h' entry inner =>
    cases hp
    have hentries : s.registry.modifyEntry entry (fun e => { e with title := some text }) =
        s.registry := by
      refine Registry.modifyEntry_eq_self fun e he => ?_
      rw [Resolution.textIn?, he, Option.bind_some] at h
      rw [← h]
    refine ⟨?_, fun _ _ => rfl⟩
    change { s with registry := _ } = { s with registry := _ }
    rw [hentries]
  | term f key location content =>
    cases hp
    refine ⟨rfl, fun scope key' => ?_⟩
    change (s.setState f key (.term (some text))).stateIn? scope key' = _
    rw [stateIn?_setState]
    split
    next heq =>
      obtain ⟨-, old, hst⟩ := hsight
      have hst : s.stateIn? (s.scopeOf f) key = some (.term old) := hst
      rw [Resolution.textIn?, hst] at h
      rw [heq.1, heq.2, hst, show old = some text from h]
    · rfl
  | text | embedding | expansion => cases hp

end Agrees

/-- What can be found was there before, if no more texts are there than before. -/
theorem Passed.saturated (h : s.Passed vs s') (hc : s.Consistent vs)
    (hcount : vs.countP s.lacks ≤ vs.countP s'.lacks) : s.Saturated vs := by
  -- the texts that are missing are a part of those that were, and just as many
  have hsub : (vs.filter s'.lacks).Sublist (vs.filter s.lacks) :=
    List.monotone_filter_right vs fun _ => h.adds.lacks
  have heq : vs.filter s'.lacks = vs.filter s.lacks := by
    refine hsub.eq_of_length_le ?_
    rw [← List.countP_eq_length_filter, ← List.countP_eq_length_filter]
    exact hcount
  intro v hv text ht
  cases hold : s.textAt? v with
  | some old => rw [← ht, (hc v hv old hold).1]
  | none =>
    have hplace : (s.place? v).isSome = true := by
      rcases s.find_cases v with ⟨-, hnone, -⟩ | ⟨p, -, hp, -⟩ | ⟨p, -, hp, -⟩
      · cases hnone.symm.trans ht
      · rw [hp, Option.isSome_some]
      · rw [hp, Option.isSome_some]
    have hlacks : v ∈ vs.filter s.lacks :=
      List.mem_filter.2 ⟨hv, by rw [lacks, hplace, hold]; rfl⟩
    rw [← heq, List.mem_filter, lacks, h.found v hv text ht] at hlacks
    simp at hlacks

/-- The texts of a saturated resolution do not stop a pass. -/
theorem Saturated.broken? (h : s.Saturated vs) (hc : s.Consistent vs) {v : Visit} (hv : v ∈ vs) :
    s.broken? v = none := by
  cases ht : s.told? v with
  | some text => exact (hc v hv text (h v hv text ht)).2
  | none =>
    cases v with
    | heading => simp only [Resolution.broken?, ht]
    | _ => rfl

/-- A visit that finds what is there changes nothing. -/
theorem Laid.find_agrees (h : s.Laid vs) (hs : s.Saturated vs) {v : Visit} (hv : v ∈ vs) :
    s.Agrees (s.find v) ∧
      (s.find v).unresolved = s.unresolved ++ (s.missing? v).toList := by
  rcases s.find_cases v with ⟨-, -, hm, hfind⟩ | ⟨p, text, hp, ht, hm, hfind⟩ |
    ⟨-, u, -, -, hm, hfind⟩
  · rw [hfind, hm]
    exact ⟨.refl s, (List.append_nil _).symm⟩
  · have hold := hs v hv text ht
    rw [textAt?, hp, Option.bind_some] at hold
    rw [hfind, hm]
    refine ⟨.store (h.ready v hv) (h.sighted v hv) hp hold, ?_⟩
    cases p <;> exact (List.append_nil _).symm
  · rw [hfind, hm]
    exact ⟨.of_unresolved s _, rfl⟩

end Resolution

namespace Run

variable {R : ResolveError → Prop} {s : Resolution} {vs : List Visit}

theorem visits_of_saturated (h : s.Laid vs) (hc : s.Consistent vs) (hs : s.Saturated vs)
    (hu : s.unresolved = []) : Ends R (vs.forM findVisit) s fun _ s' => s.Agrees s' ∧
      s'.unresolved = vs.filterMap s.missing? := by
  refine Ends.forM_split (J := fun pre _ t => s.Agrees t ∧
    t.unresolved = pre.filterMap s.missing?) (fun pre v post t hsplit ⟨ha, hn⟩ => ?_)
    ⟨.refl s, hu⟩
  have hv : v ∈ vs := hsplit ▸ by simp
  have hl := h.adds ha.adds
  have hst := ha.saturated hs
  have hb : t.broken? v = none := by
    refine hst.broken? (hc.adds ha.adds fun w _ text ht => ?_) hv
    rw [← ht, ha.textAt?]
  rw [findVisit_iff (hl.ready v hv) (hl.sighted v hv)]
  refine ⟨fun e he => (by cases hb.symm.trans he), fun _ => ?_⟩
  obtain ⟨ha', hn'⟩ := hl.find_agrees hst hv
  refine ⟨ha.trans ha', ?_⟩
  rw [hn', hn, ha.missing?, List.filterMap_append]
  cases hm : s.missing? v <;> simp [hm]

/-- A pass over a saturated resolution notes what is missing, and does nothing else. -/
theorem pass_of_saturated (h : s.Sought vs) (hs : s.Saturated vs) :
    Ends R pass s fun _ s' => s.Agrees s' ∧ s'.unresolved = vs.filterMap s.missing? := by
  have ha := Agrees.of_unresolved s []
  have h₀ := h.adds ha.adds (h.consistent.adds ha.adds fun _ _ _ => id)
  refine (pass_of_visits (Q := fun _ s' => s.Agrees s' ∧ s'.unresolved = vs.filterMap s.missing?)
    h.toured h.ordered ?_).mono fun _ _ h => h.2
  refine (visits_of_saturated h₀.toLaid h₀.consistent (ha.saturated hs) rfl).mono
    fun _ s' ⟨ha', hn⟩ => ⟨ha.trans ha', ?_⟩
  rw [hn, show missing? { s with unresolved := [] } = s.missing? from funext ha.missing?]

/-- A number of passes, one after the other. -/
def passTimes : Nat → Run Unit
  | 0 => pure ()
  | n + 1 => do
    let _ ← pass
    passTimes n

/-- No number of passes over a saturated resolution finds anything. -/
theorem passTimes_of_saturated (h : s.Sought vs) (hs : s.Saturated vs)
    (hu : s.unresolved = vs.filterMap s.missing?) (n : Nat) :
    Ends R (passTimes n) s fun _ s' => s.Agrees s' ∧ s'.unresolved = s.unresolved := by
  induction n generalizing s with
  | zero => exact ⟨.refl s, rfl⟩
  | succ n ih =>
    unfold passTimes
    rw [Ends.bind_iff]
    refine (pass_of_saturated h hs).mono fun _ s₁ ⟨ha, hn⟩ => ?_
    have hmissing : s₁.missing? = s.missing? := funext ha.missing?
    have hc₁ := h.consistent.adds ha.adds fun w _ text ht => by rw [← ht, ha.textAt?]
    refine (ih (h.adds ha.adds hc₁) (ha.saturated hs) (by rw [hn, hmissing])).mono
      fun _ s' ⟨ha', hu'⟩ => ⟨ha.trans ha', ?_⟩
    rw [hu', hn, hu]

namespace Passes

variable {last : Option Nat} {r : EStateM.Result ResolveError Resolution Unit}

/-- Passes that get stuck have found all that can be found, and tell what is missing. -/
theorem unresolved (h : Passes last s r) (hs : s.Sought vs)
    (hlast : ∀ l ∈ last, l = vs.countP s.lacks) {us : List Unresolved} {s' : Resolution}
    (hr : r = .error (.unresolved us) s') : s'.Sought vs ∧ s'.Saturated vs ∧
      s'.unresolved = us ∧ us = vs.filterMap s'.missing? := by
  induction h with
  | fails h =>
    cases hr
    exact ((pass_ends hs).of_error h).elim
  | done h => cases hr
  | @stuck _ _ s _ h hc hl =>
    cases hr
    obtain ⟨hn, hpassed⟩ := (pass_ends hs).of_ok h
    have hcount := hpassed.count
    rw [hlast _ rfl, hn, hcount] at hl
    have hsat := hpassed.saturated hs.consistent hl
    obtain ⟨ha, hu⟩ := (pass_of_saturated (R := fun _ => True) hs hsat).of_ok h
    have hmissing : s'.missing? = s.missing? := funext ha.missing?
    exact ⟨hpassed.sought, ha.saturated hsat, rfl, by rw [hu, hmissing]⟩
  | again h hc hl _ ih =>
    obtain ⟨hn, hpassed⟩ := (pass_ends hs).of_ok h
    refine ih hpassed.sought (fun l hl' => ?_) hr
    cases hl'
    rw [hn, hpassed.count]

end Passes

end Run

end Folio
