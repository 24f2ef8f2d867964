import Folio.Proofs.LabeledNodes
import Folio.Proofs.Resolution.Untold

/-!
# Titles and terms are found for good

Titles and terms can show each other, and passes over the documents find them. A resolution that
succeeds has found them all, each is what is written out for it in the end, and none was ever
replaced (`Collection.Described.texts_written`). A resolution that lacks texts has found all that
can be found: no further pass would find another one, and the error tells exactly what is missing
(`Collection.Described.passes_stuck`).
-/

namespace Folio

open Resolution

namespace Collection

variable {c : Collection}

/-- What comes of the passes is what comes of the resolution. -/
theorem resolve_eq {s : Resolution} (hs : c.beforeValues.run c.start = .ok () s) :
    c.resolve = Run.resolveValues.run s := by
  rw [resolve, c.phases_eq, Run.run_bind_of_ok hs]

/-- A resolution that succeeds has gone through the phases before the passes. -/
theorem exists_beforeValues {s : Resolution} (hs : c.resolve = .ok () s) :
    ∃ s₀, c.beforeValues.run c.start = .ok () s₀ := by
  cases h : c.beforeValues.run c.start with
  | ok _ s₀ => exact ⟨s₀, rfl⟩
  | error e s₀ =>
    rw [resolve, c.phases_eq, Run.run_bind_of_error h] at hs
    cases hs

/-- Titles and terms are kept as they are written out in the end, and no title is kept besides.
From the beginning of the first pass to the end of the last one, a text that is kept stays. -/
theorem Described.texts_written (hc : c.Described) {s : Resolution} (hs : c.resolve = .ok () s) :
    ∃ s₀ vs n, c.beforeValues.run c.start = .ok () s₀ ∧ s.Toured s.documents vs ∧
      (∀ v ∈ vs, ∀ location t, v.inscription? = some (location, t) → ∃ text,
        s.renderText v.frame t = .ok text ∧ s.textAt? v = some (Text.trim text)) ∧
      (∀ e title, s.textIn? (.title e) = some title → ∃ v ∈ vs, s.place? v = some (.title e)) ∧
      ((Run.rounds vs n).forM Run.findStep).run s₀ = .ok () s ∧
      ∀ before between after s₁ s₂, before ++ between ++ after = Run.rounds vs n →
        (before.forM Run.findStep).run s₀ = .ok () s₁ →
        (between.forM Run.findStep).run s₁ = .ok () s₂ →
        ∀ p text, s₁.textIn? p = some text → s₂.textIn? p = some text := by
  obtain ⟨s₀, h₀⟩ := exists_beforeValues hs
  obtain ⟨W, huntold⟩ := hc.beforeValues_ends.of_ok h₀
  obtain ⟨vs, hsought, -⟩ := huntold.sought
  rw [resolve_eq h₀] at hs
  obtain ⟨-, hend, hall, n, hn⟩ := (Run.passes_resolveValues s₀).complete hsought hs
  refine ⟨s₀, vs, n, h₀, hend.toured, fun v hv location t hi => ?_, fun e title ht => ?_,
    After.run_eq_ok_iff.2 hn, fun before between after s₁ s₂ hsplit h₁ h₂ p text ht => ?_⟩
  · have hplace : (s.place? v).isSome = true := by rw [isSome_place?, hi, Option.isSome_some]
    have hkept : (s.textAt? v).isSome = true := by
      have := hall v hv
      rw [lacks, hplace, Bool.true_and, Option.isNone_eq_false_iff] at this
      exact this
    obtain ⟨text, htext⟩ := Option.isSome_iff_exists.1 hkept
    have htold := (hend.consistent v hv text htext).1
    cases hr : s.renderText v.frame t with
    | ok written =>
      rw [told?_of_ok hi hr] at htold
      exact ⟨written, rfl, by rw [htext, ← htold]⟩
    | error e => cases (told?_of_error hi hr).symm.trans htold
  · obtain ⟨ha, -, hp⟩ := (Run.steps_add hsought.toLaid hsought.consistent
      fun _ => Run.mem_of_some_mem_rounds).of_ok (After.run_eq_ok_iff.2 hn)
    rcases hp _ _ ht with hold | ⟨v, hv, hplace⟩
    · obtain ⟨entry, he, htitle⟩ := Option.bind_eq_some_iff.1 hold
      cases (huntold.untitled e entry he).symm.trans htitle
    · exact ⟨v, hv, (ha.settled.place? v).trans hplace⟩
  · have hmem : ∀ v, some v ∈ before ++ between → v ∈ vs := fun v hv =>
      Run.mem_of_some_mem_rounds (n := n) (hsplit ▸ List.mem_append_left _ hv)
    obtain ⟨ha, hc₁, -⟩ := (Run.steps_add hsought.toLaid hsought.consistent
      fun v hv => hmem v (List.mem_append_left _ hv)).of_ok h₁
    obtain ⟨ha', -⟩ := (Run.steps_add (hsought.toLaid.adds ha) hc₁
      fun v hv => hmem v (List.mem_append_right _ hv)).of_ok h₂
    exact ha'.text p text ht

/-- The collection of one document, if it can be read. -/
def single (path : String) (description : Description) : Collection where
  documents := (Document.ofDescription? path description).toOption.toList.map fun d => (path, d)

theorem single_described (path : String) (description : Description) :
    (single path description).Described where
  sorted := by
    unfold single
    cases Document.ofDescription? path description <;> simp [Except.toOption, Table.keys]
  made p d hd := by
    unfold single at hd
    cases h : Document.ofDescription? path description with
    | ok d' =>
      rw [h] at hd
      cases List.mem_singleton.1 hd
      exact ⟨description, h⟩
    | error e =>
      rw [h] at hd
      cases hd

/-- The title of the first section shows that of the second one. -/
def forwardTitle : Collection := single "/doc" {
  nodes := [.heading (some "a") "Before \x7b\x7btitle #b\x7d\x7d" [],
    .heading (some "b") "Last" []] }

/-- The first section has the title that is written out for it in the end. -/
theorem texts_written_forwardTitle : ∃ s vs v location t text,
    forwardTitle.resolve = .ok () s ∧ s.Toured s.documents vs ∧ v ∈ vs ∧
      s.place? v = some (.title ⟨0⟩) ∧ v.inscription? = some (location, t) ∧
      s.renderText v.frame t = .ok text ∧ Text.trim text = "Before Last" := by
  obtain ⟨s, hs, htitle⟩ := forwardTitle.exists_resolve_and
    (P := fun s => s.textIn? (.title ⟨0⟩) = some "Before Last") (by decide +kernel)
  obtain ⟨s₀, vs, n, -, htoured, hwritten, hplaced, -⟩ :=
    (single_described ..).texts_written hs
  obtain ⟨v, hv, hplace⟩ := hplaced _ _ htitle
  have hi : v.inscription?.isSome = true := by rw [← s.isSome_place?, hplace, Option.isSome_some]
  obtain ⟨⟨location, t⟩, hi⟩ := Option.isSome_iff_exists.1 hi
  obtain ⟨text, htext, hat⟩ := hwritten v hv location t hi
  rw [textAt?, hplace, Option.bind_some, htitle] at hat
  exact ⟨s, vs, v, location, t, text, hs, htoured, hv, hplace, hi, htext,
    (Option.some.inj hat).symm⟩

/-- Passes come to an end, and when they get stuck, the error lists the visits whose texts cannot be
written out by then, in their order. Any number of further passes leaves what is known. -/
theorem Described.passes_stuck (hc : c.Described) {s : Resolution}
    (hs : c.beforeValues.run c.start = .ok () s) :
    ∃ vs, s.Toured s.documents vs ∧ Run.Passes none s c.resolve ∧
      ∀ us s', c.resolve = .error (.unresolved us) s' → us = vs.filterMap s'.missing? ∧
        ∀ n, ∃ t, (Run.passTimes n).run s' = .ok () t ∧ s'.Agrees t ∧ t.unresolved = us := by
  obtain ⟨W, huntold⟩ := hc.beforeValues_ends.of_ok hs
  obtain ⟨vs, hsought, -⟩ := huntold.sought
  have hpasses := Run.passes_resolveValues s
  rw [resolve_eq hs]
  refine ⟨vs, hsought.toured, hpasses, fun us s' hr => ?_⟩
  obtain ⟨hend, hsaturated, hu, hus⟩ := hpasses.unresolved hsought (fun _ h => by cases h) hr
  refine ⟨hus, fun n => ?_⟩
  have hn := Run.passTimes_of_saturated (R := fun _ => False) hend hsaturated (hu.trans hus) n
  cases ht : (Run.passTimes n).run s' with
  | ok _ t =>
    obtain ⟨ha, hunresolved⟩ := hn.of_ok ht
    exact ⟨t, rfl, ha, hunresolved.trans hu⟩
  | error e t => exact (hn.of_error ht).elim

/-- The titles of two sections show each other. -/
def cyclicTitles : Collection := single "/doc" {
  nodes := [.heading (some "a") "A \x7b\x7btitle #b\x7d\x7d" [],
    .heading (some "b") "B \x7b\x7btitle #a\x7d\x7d" []] }

/-- A resolution that lacks texts tells how many. -/
theorem exists_unresolved {n : Nat} (h : (match c.resolve with
    | .error (.unresolved us) _ => us.length == n
    | _ => false) = true) :
    ∃ us s, c.resolve = .error (.unresolved us) s ∧ us.length = n := by
  split at h
  next us s hs => exact ⟨us, s, hs, by simpa using h⟩
  · cases h

theorem cyclicTitles_unresolved :
    ∃ us s, cyclicTitles.resolve = .error (.unresolved us) s ∧ us.length = 2 :=
  exists_unresolved (by decide +kernel)

/-- Neither title can be written out. -/
theorem passes_stuck_cyclicTitles : ∃ s vs us s',
    cyclicTitles.beforeValues.run cyclicTitles.start = .ok () s ∧ s.Toured s.documents vs ∧
      cyclicTitles.resolve = .error (.unresolved us) s' ∧ us = vs.filterMap s'.missing? ∧
      us.length = 2 := by
  have hbefore : cyclicTitles.beforeValues.run' cyclicTitles.start = some () := by
    decide +kernel
  obtain ⟨us, s', hs', hlength⟩ := cyclicTitles_unresolved
  delta EStateM.run' at hbefore
  split at hbefore
  next _ s hs =>
    obtain ⟨vs, htoured, -, hstuck⟩ := (single_described ..).passes_stuck hs
    exact ⟨s, vs, us, s', hs, htoured, hs', (hstuck us s' hs').1, hlength⟩
  · cases hbefore

end Collection

end Folio
