import Folio.Proofs.Resolution.Added

/-!
# Passes that find texts

A pass makes the visits of all documents that are no templates (`Resolution.Toured`), one walk after
the other. `Run.pass_ends` says what comes of it: texts are added, those that could be found before
are there afterwards, and the answer is how many are missing.

Passes go on as long as their answers fall. `Run.Passes` is that rule without a bound on their
number, and `Run.passes_resolveValues` says that the bound is never met.
-/

namespace Folio

open Resolution

/-- A title with a line break. -/
def ResolveError.Multiline : ResolveError → Prop
  | .located _ (.multilineTitle _) => True
  | _ => False

theorem ResolveError.Multiline.external {e : ResolveError} (h : e.Multiline) : e.External := by
  unfold Multiline at h
  split at h
  · exact id
  · exact h.elim

namespace Resolution

/-- The visits of those documents that are no templates. -/
inductive Toured (s : Resolution) : Table DocumentInfo → List Visit → Prop
  | nil : Toured s [] []
  | template {path : String} {info : DocumentInfo} {ds : Table DocumentInfo} {vs : List Visit}
    (ht : info.document.template = true) (hds : Toured s ds vs) : Toured s ((path, info) :: ds) vs
  | document {path : String} {info : DocumentInfo} {ds : Table DocumentInfo} {vs ws : List Visit}
    (ht : info.document.template = false) (hw : Walk s info.frame info.document.nodes vs)
    (hds : Toured s ds ws) : Toured s ((path, info) :: ds) (vs ++ ws)

theorem Toured.keeps {s s' : Resolution} {ds : Table DocumentInfo} {vs : List Visit}
    (h : s.Toured ds vs) (hs : s.Keeps s') : s'.Toured ds vs := by
  induction h with
  | nil => exact .nil
  | template ht _ ih => exact .template ht ih
  | document ht hw _ ih => exact .document ht (hw.keeps hs) ih

/-- The visits of the documents find what they need, and the texts that are kept are right. -/
structure Sought (vs : List Visit) (s : Resolution) : Prop extends s.Laid vs where
  toured : s.Toured s.documents vs
  consistent : s.Consistent vs

theorem Sought.adds {vs : List Visit} {s s' : Resolution} (h : s.Sought vs) (ha : s.Adds s')
    (hc : s'.Consistent vs) : s'.Sought vs where
  toLaid := h.toLaid.adds ha
  toured := by
    rw [ha.settled.documents]
    exact h.toured.keeps ha.settled.keeps
  consistent := hc

/-- What a pass comes to. -/
structure Passed (vs : List Visit) (s s' : Resolution) : Prop where
  visits : After False (vs.forM Run.findVisit) { s with unresolved := [] } fun _ t => t = s'
  adds : s.Adds s'
  sought : s'.Sought vs
  count : s'.unresolved.length = vs.countP s'.lacks
  found : ∀ v ∈ vs, ∀ text, s.told? v = some text → s'.textAt? v = some text

end Resolution

theorem broken?_multiline {s : Resolution} {v : Visit} {e : ResolveError}
    (h : s.broken? v = some e) : e.Multiline := by
  cases v with
  | heading f h' entry inner =>
    simp only [broken?] at h
    split at h
    · split at h
      · cases h
        exact trivial
      · cases h
    · cases h
  | _ => cases h

namespace Run

variable {R : ResolveError → Prop} {s : Resolution} {vs : List Visit}

/-- Finds the texts of a document, if it is no template. -/
def findDocument (p : String × DocumentInfo) : Run Unit := do
  if !p.2.document.template then
    findWithin ((← get).frames.size + 1) p.2.frame p.2.document.nodes

theorem pass_eq : pass = do
    modify fun s => { s with unresolved := [] }
    (← get).documents.forM findDocument
    return (← get).unresolved.length := rfl

/-- The visits of the documents are made in their order. -/
theorem documents_of_visits {ds : Table DocumentInfo} (ht : s.Toured ds vs) (ho : s.Ordered) :
    ∀ s' (Q : Unit → Resolution → Prop), s.Settled s' → Ends R (vs.forM findVisit) s' Q →
      Ends R (ds.forM findDocument) s' Q := by
  induction ht with
  | nil => exact fun _ _ _ h => h
  | template ht _ ih =>
    intro s' Q hs h
    rw [Ends.forM_cons, findDocument]
    simp only [ht, Bool.not_true, Bool.false_eq_true, if_false]
    exact ih s' Q hs h
  | @document path info ds vs ws ht hw _ ih =>
    intro s' Q hs h
    rw [Ends.forM_append] at h
    rw [Ends.forM_cons, findDocument]
    simp only [ht, Bool.not_false, if_true]
    rw [Ends.bind_iff, Ends.get_iff]
    have hw' := hw.keeps hs.keeps
    have ho' : s'.Ordered := by
      rw [hs.same]
      exact ho
    refine ((find_tour.of_visits hw' (.inr ho') (Nat.le_refl _) h).inspect
      (findWithin_spec hw' _)).mono fun _ s₁ ⟨hs₁, _, h⟩ => ?_
    exact ih s₁ Q (hs.trans hs₁) h

theorem pass_of_visits (ht : s.Toured s.documents vs) (ho : s.Ordered)
    {Q : Unit → Resolution → Prop}
    (h : Ends R (vs.forM findVisit) { s with unresolved := [] } Q) :
    Ends R pass s fun n s' => n = s'.unresolved.length ∧ Q () s' := by
  rw [pass_eq, Ends.bind_iff, Ends.modify_iff, Ends.bind_iff, Ends.get_iff, Ends.bind_iff]
  refine (documents_of_visits ht ho _ Q (.of_unresolved s []) h).mono fun _ s' h => ?_
  rw [Ends.bind_iff, Ends.get_iff]
  exact ⟨rfl, h⟩

/-- Visits find texts one after the other, unless a title with a line break stops them. -/
theorem visits_found (h : s.Laid vs) (hc : s.Consistent vs) (hu : s.unresolved = []) :
    Ends ResolveError.Multiline (vs.forM findVisit) s fun _ s' =>
      s.Adds s' ∧ s'.Consistent vs ∧ s'.unresolved.length = vs.countP s'.lacks ∧
      ∀ v ∈ vs, ∀ text, s.told? v = some text → s'.textAt? v = some text := by
  refine Ends.forM_split (J := fun pre _ t => s.Adds t ∧ t.Consistent vs ∧
    t.unresolved.length = pre.countP t.lacks ∧
    ∀ v ∈ pre, ∀ text, s.told? v = some text → t.textAt? v = some text)
    (fun pre v post t hsplit ⟨ha, hc, hn, hf⟩ => ?_) ⟨.refl s, hc, by simp [hu], by simp⟩
  have hv : v ∈ vs := hsplit ▸ by simp
  have hl := h.adds ha
  rw [findVisit_iff (hl.ready v hv) (hl.sighted v hv)]
  refine ⟨fun e he => broken?_multiline he, fun hb => ?_⟩
  obtain ⟨ha', hc'⟩ := hl.find hc hv hb
  refine ⟨ha.trans ha', hc', ?_, ?_⟩
  · -- no earlier visit has the same place
    have hnodup := hl.nodup
    rw [← hsplit, List.filterMap_append, List.nodup_append] at hnodup
    have hearlier : ∀ w ∈ pre, (t.find v).lacks w = t.lacks w := by
      refine fun w hw => hl.find_lacks_of_ne hv fun p hwp hvp => ?_
      exact hnodup.2.2 p (List.mem_filterMap.2 ⟨w, hw, hwp⟩) p
        (List.mem_filterMap.2 ⟨v, by simp, hvp⟩) rfl
    rw [List.countP_append, List.countP_singleton, hl.find_lacks hc hv, List.countP_congr
      (fun w hw => by rw [hearlier w hw]), ← hn]
    rcases t.find_cases v with ⟨-, -, hm, hfind⟩ | ⟨p, text, -, -, hm, hfind⟩ |
      ⟨-, u, -, -, hm, hfind⟩
    · simp [hfind, hm]
    · rw [hfind, hm]
      cases p <;> simp [store]
    · simp [hfind, hm]
  · intro w hw text ht
    rcases List.mem_append.1 hw with hw | hw
    · exact ha'.textAt? (hf w hw text ht)
    · cases List.mem_singleton.1 hw
      have ht := ha.told? ht
      rcases t.find_cases v with ⟨-, htold, -⟩ | ⟨p, text', hp, htold, -, hfind⟩ |
        ⟨-, -, -, htold, -⟩
      · cases htold.symm.trans ht
      · cases htold.symm.trans ht
        rw [hfind, textAt?, place?_store, hp, Option.bind_some,
          textIn?_store (hl.ready v hv) (hl.sighted v hv) hp, if_pos rfl]
      · cases htold.symm.trans ht

theorem pass_ends (h : s.Sought vs) :
    Ends ResolveError.Multiline pass s fun n s' => n = s'.unresolved.length ∧ s.Passed vs s' := by
  have hcleared := Adds.of_unresolved s []
  have h₀ := h.adds hcleared (h.consistent.adds hcleared fun _ _ _ => id)
  refine pass_of_visits (Q := fun _ s' => s.Passed vs s') h.toured h.ordered
    ((visits_found h₀.toLaid h₀.consistent rfl).mono_ok ?_)
  rintro _ s' hm ⟨ha, hc, hn, hf⟩
  exact ⟨After.run_eq_ok_iff.1 hm, hcleared.trans ha, h₀.adds ha hc, hn,
    fun v hv text ht => hf v hv text (hcleared.told? ht)⟩

/-! ## Passes until none helps -/

/-- How passes go on, without a bound on their number. `last` is how many texts the pass before has
missed, if there was one. -/
inductive Passes : Option Nat → Resolution → EStateM.Result ResolveError Resolution Unit → Prop
  | fails {last : Option Nat} {s s' : Resolution} {e : ResolveError}
    (h : pass.run s = .error e s') : Passes last s (.error e s')
  | done {last : Option Nat} {s s' : Resolution} (h : pass.run s = .ok 0 s') :
    Passes last s (.ok () s')
  | stuck {last count : Nat} {s s' : Resolution} (h : pass.run s = .ok count s')
    (hc : count ≠ 0) (hl : last ≤ count) : Passes (some last) s (.error (.unresolved s'.unresolved) s')
  | again {last : Option Nat} {count : Nat} {s s' : Resolution}
    {r : EStateM.Result ResolveError Resolution Unit} (h : pass.run s = .ok count s')
    (hc : count ≠ 0) (hl : ∀ l ∈ last, count < l) (hr : Passes (some count) s' r) : Passes last s r

theorem run_bind_of_ok {α β : Type} {m : Run α} {k : α → Run β} {s s' : Resolution} {a : α}
    (h : m.run s = .ok a s') : (m >>= k).run s = (k a).run s' := bind_of_ok h

theorem run_bind_of_error {α β : Type} {m : Run α} {k : α → Run β} {s s' : Resolution}
    {e : ResolveError} (h : m.run s = .error e s') : (m >>= k).run s = .error e s' :=
  bind_of_error h

theorem passes_passesAfter {fuel last : Nat} (hlast : 0 < last) (hfuel : last ≤ fuel)
    (s : Resolution) : Passes (some last) s ((passesAfter fuel last).run s) := by
  induction fuel generalizing last s with
  | zero => omega
  | succ fuel ih =>
    unfold passesAfter
    cases hp : pass.run s with
    | error e s' =>
      rw [run_bind_of_error hp]
      exact .fails hp
    | ok count s' =>
      rw [run_bind_of_ok hp]
      by_cases hc : count = 0
      · subst hc
        exact .done hp
      · by_cases hl : count ≥ last
        · simp only [hc, hl, if_true, if_false]
          exact .stuck hp hc hl
        · simp only [hc, hl, if_false]
          refine .again hp hc (fun l hl' => ?_) (ih (by omega) (by omega) s')
          cases hl'
          omega

/-- Passes go on as long as each misses fewer texts than the one before. -/
theorem passes_resolveValues (s : Resolution) : Passes none s (resolveValues.run s) := by
  unfold resolveValues
  cases hp : pass.run s with
  | error e s' =>
    rw [run_bind_of_error hp]
    exact .fails hp
  | ok count s' =>
    rw [run_bind_of_ok hp]
    by_cases hc : count = 0
    · subst hc
      exact .done hp
    · simp only [hc, if_false]
      exact .again hp hc (fun _ h => by cases h)
        (passes_passesAfter (Nat.pos_of_ne_zero hc) (Nat.le_refl _) s')

end Run

end Folio
