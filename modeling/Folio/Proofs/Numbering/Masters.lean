import Folio.Proofs.Numbering.Restarts
import Folio.Proofs.Numbering.Trees

/-!
# Ranges that follow a master

A range that follows a master asks for the latest slot in the tree of the master, at any depth. If
every range serves a tree, that slot lies in the tree that the range in use for the master serves
(`Layout.Serves.covers_actual`).

Leads and separators go together: `Numbering.Mastered` says that all leads come from one master, and
that one separator stands behind their names.
-/

namespace Folio

namespace Layout

/-- Every range serves a tree. -/
def Served (l : Layout) (P : RangeId → SlotId → Prop) : Prop :=
  ∀ i r, l.range? i = some r → ∃ top, l.Serves P top i

variable {l : Layout} {P : RangeId → SlotId → Prop} {top i : RangeId} {q x : SlotId}

/-- Whatever lies deepest below a slot lies in its tree. -/
theorem Served.covers_deepest (h : l.Served P) (hl : l.Sound)
    (hroot : ∃ u, l.range? top = some u ∧ u.parent = none) (fuel : Nat) (hq : l.Covers top q) :
    l.Covers top (l.deepest fuel q) := by
  induction fuel generalizing q with
  | zero => exact hq
  | succ fuel ih =>
    unfold deepest
    split
    next below hbelow =>
      obtain ⟨i, hi, hcur⟩ := Option.bind_eq_some_iff.1 hbelow
      obtain ⟨s, hs, hnested⟩ := Option.bind_eq_some_iff.1 hi
      obtain ⟨r, hr, hc⟩ := Option.bind_eq_some_iff.1 hcur
      obtain ⟨r', hr', hparent, -⟩ := hl.nested_parent q s i hs hnested
      cases hr.symm.trans hr'
      -- The range below serves the tree of the slot above it.
      obtain ⟨top', hserves⟩ := h i r hr
      obtain ⟨u, hu, hup⟩ := hroot
      obtain ⟨v, hv, hvp⟩ := hserves.root
      obtain rfl := hl.covers_unique hv hu hvp hup (hserves.parent r q hr hparent) hq
      exact ih (hserves.current r below hr hc)
    · exact hq

/-- The latest slot of a range and of everything below it lies in the tree that it serves. -/
theorem Serves.covers_actual (h : l.Serves P top i) (hall : l.Served P) (hl : l.Sound)
    (hx : l.actual i = some x) : l.Covers top x := by
  obtain ⟨c, hc, rfl⟩ := Option.map_eq_some_iff.1 hx
  obtain ⟨r, hr, hcur⟩ := Option.bind_eq_some_iff.1 hc
  exact hall.covers_deepest hl h.root _ (h.current r c hr hcur)

theorem exists_of_ofMaster {master : String} (h : Lead.ofMaster master none l = some x) :
    ∃ i, l.active? master = some i ∧ l.actual i = some x := by
  obtain ⟨y, hy, hx⟩ := Option.bind_eq_some_iff.1 h
  cases hx
  exact Option.bind_eq_some_iff.1 hy

end Layout

/-- All leads come from the type `master`, and `σ` stands behind their names. -/
structure Numbering.Mastered (master σ : String) (n : Numbering) : Prop where
  lookup : ∀ i lead, n.leads.lookup i = some lead → lead = Lead.ofMaster master none ∧
    ∃ r, n.layout.range? i = some r ∧ r.separator = σ
  range : ∀ i r x, n.layout.range? i = some r → r.lead = some x → r.separator = σ

namespace Numbering.Mastered

variable {master σ : String} {n n' : Numbering} {range : RangeId} {r : Range}

theorem empty : ({} : Numbering).Mastered master σ := by
  constructor <;> simp [Layout.range?]

theorem separator_of_leadFor (h : n.Mastered master σ) (hr : n.layout.range? range = some r)
    {x : SlotId} (hx : n.leadFor range r = some x) : r.separator = σ := by
  unfold leadFor at hx
  split at hx
  next lead hl =>
    obtain ⟨-, u, hu, hσ⟩ := h.lookup range lead hl
    cases hr.symm.trans hu
    exact hσ
  · exact h.range range r x hr hx

theorem claimed (h : n.Mastered master σ) {opened : Bool} {pinned : Option Nat}
    (hc : n.layout.Claimed n'.layout range r opened (n.leadFor range r) pinned)
    (hleads : n'.leads = n.leads) : n'.Mastered master σ where
  lookup i lead hl := by
    obtain ⟨hlead, u, hu, hσ⟩ := h.lookup i lead (hleads ▸ hl)
    refine ⟨hlead, ?_⟩
    by_cases hi : i = range
    · subst hi
      cases hc.before.symm.trans hu
      exact ⟨_, hc.range_self, hσ⟩
    · exact ⟨u, (hc.range_other hi).trans hu, hσ⟩
  range i u x hu hx := by
    by_cases hi : i = range
    · subst hi
      cases hc.range_self.symm.trans hu
      have hlead : n.leadFor i r = some x := hx
      exact (h.separator_of_leadFor hc.before hlead :)
    · exact h.range i u x ((hc.range_other hi).symm.trans hu) hx

/-- Ranges keep their separators, and a range whose separator fits is added. -/
theorem ranges (h : n.Mastered master σ) (hleads : n'.leads = n.leads)
    (hkept : ∀ i r, n.layout.range? i = some r → ∃ r', n'.layout.range? i = some r' ∧
      r'.lead = r.lead ∧ r'.separator = r.separator)
    (hnew : ∀ i r' x, n'.layout.range? i = some r' → n.layout.range? i = none →
      r'.lead = some x → r'.separator = σ) : n'.Mastered master σ where
  lookup i lead hl := by
    obtain ⟨hlead, r, hr, hσ⟩ := h.lookup i lead (hleads ▸ hl)
    obtain ⟨r', hr', -, hsep⟩ := hkept i r hr
    exact ⟨hlead, r', hr', hsep.trans hσ⟩
  range i r' x hr' hx := by
    cases hr : n.layout.range? i with
    | none => exact hnew i r' x hr' hr hx
    | some r =>
      obtain ⟨u, hu, hlead, hsep⟩ := hkept i r hr
      cases hr'.symm.trans hu
      exact hsep.trans (h.range i r x hr (hlead ▸ hx))

/-! ## The operations -/

theorem setActive (h : n.Mastered master σ) (active : List (String × RangeId)) :
    (n.setActive active).Mastered master σ :=
  h.ranges rfl (fun _ r hr => ⟨r, hr, rfl, rfl⟩) fun _ _ _ h h' => by cases h.symm.trans h'

/-- A range at the top may be added that follows the master, if it has the separator, or none. -/
theorem newRange (h : n.Mastered master σ) (typ abbreviation : String) (lead : Option Lead)
    (separator : String) (rule : Option LabelRule)
    (hlead : ∀ f, lead = some f → f = Lead.ofMaster master none ∧ separator = σ) :
    ((n.newRange typ abbreviation lead).2.setRule (n.newRange typ abbreviation lead).1 separator
      rule).Mastered master σ := by
  have hrange : ∀ i, ((n.newRange typ abbreviation lead).2.setRule
      (n.newRange typ abbreviation lead).1 separator rule).layout.range? i =
        if i = n.layout.freshRange then some { typ, abbreviation, separator, rule }
        else n.layout.range? i := by
    intro i
    rw [range?_setRule, newRange_fst, layout_newRange, Layout.range?_addRange, Layout.addRange_fst]
    split <;> rfl
  refine ⟨fun i f hf => ?_, fun i r x hr hx => ?_⟩
  · have hold : n.leads.lookup i = some f → i ≠ n.layout.freshRange := by
      rintro hf rfl
      obtain ⟨-, r, hr, -⟩ := h.lookup _ f hf
      simp at hr
    have hcases : n.leads.lookup i = some f ∨ i = n.layout.freshRange ∧ lead = some f := by
      cases lead with
      | none => exact .inl hf
      | some g =>
        have hf' : List.lookup i ((n.layout.freshRange, g) :: n.leads) = some f := hf
        by_cases hi : i = n.layout.freshRange
        · subst hi
          rw [List.lookup_cons_self] at hf'
          exact .inr ⟨rfl, hf'⟩
        · rw [List.lookup_cons, beq_eq_false_iff_ne.2 hi] at hf'
          exact .inl hf'
    rw [hrange]
    rcases hcases with hf | ⟨hi, hf⟩
    · obtain ⟨hmaster, r, hr, hσ⟩ := h.lookup i f hf
      exact ⟨hmaster, r, by rw [if_neg (hold hf), hr], hσ⟩
    · obtain ⟨hmaster, hσ⟩ := hlead f hf
      exact ⟨hmaster, _, if_pos hi, hσ⟩
  · rw [hrange] at hr
    split at hr
    · cases hr
      cases hx
    · exact h.range i r x hr hx

theorem next (h : n.Mastered master σ) (hs : n.layout.Sound) {slot : SlotId}
    (hn : n.next range = .ok (slot, n')) : n'.Mastered master σ := by
  obtain ⟨r, hr, -, ⟨-, -, rfl⟩ | ⟨-, heq⟩⟩ := Numbering.next_cases hn
  · refine h.ranges rfl (fun i u hu => ?_) fun i u' x hu' hu => ?_
    · rw [Layout.range?_setRange, hu]
      split
      next hi =>
        subst hi
        cases hr.symm.trans hu
        exact ⟨_, rfl, rfl, rfl⟩
      · exact ⟨u, rfl, rfl, rfl⟩
    · simp [Layout.range?_setRange, hu] at hu'
  · obtain rfl := congrArg Prod.snd heq
    exact h.claimed (hs.claim hr false none) (leads_claim ..)

theorem sub (h : n.Mastered master σ) {below : RangeId} (hn : n.sub range = .ok (below, n')) :
    n'.Mastered master σ := by
  obtain ⟨r, slot, s, hr, -, -, -, -, hleads, hopened⟩ := Numbering.sub_cases hn
  refine h.ranges hleads (fun i u hu => ?_) fun i u' x hu' hu hx => ?_
  · rw [hopened.range, hu, if_neg (by rintro rfl; simp at hu)]
    split
    next hi =>
      subst hi
      cases hr.symm.trans hu
      exact ⟨_, rfl, rfl, rfl⟩
    · exact ⟨u, rfl, rfl, rfl⟩
  · rw [hopened.range, hu] at hu'
    split at hu'
    · cases hu'
      exact h.range range r x hr hx
    · simp at hu'

theorem assign (h : n.Mastered master σ) (hs : n.layout.Sound) {level : Option Nat}
    {handle : RangeId} (hn : n.assign range level = .ok (handle, n')) : n'.Mastered master σ := by
  obtain ⟨r, hr, -, hleads, hl⟩ := Numbering.assign_cases hn
  have hclaim : (n.claim range r level).2.Mastered master σ :=
    h.claimed (hs.claim hr r.subOpened level) (leads_claim ..)
  refine hclaim.ranges (by rw [hleads, leads_claim]) (fun i u hu => ?_) fun i u' x hu' hu hx => ?_
  · refine ⟨u, ?_, rfl, rfl⟩
    rw [hl, Layout.range?_addRange, if_neg, hu]
    rintro rfl
    simp at hu
  · rw [hl, Layout.range?_addRange, hu] at hu'
    split at hu' <;> cases hu'
    have hlead : n.leadFor range r = some x := hx
    exact (h.separator_of_leadFor hr hlead :)

/-- The separator in front of a rule that a walk comes to a slot with, where the slot has a lead. -/
theorem separator_of_counts (h : n.Mastered master σ) {unled : String} (hl : n.Led unled)
    (ho : n.layout.Ordered) {f q : SlotId} {s t : Slot} {separator sep : String}
    {rule ρ : LabelRule} {previous : Option SlotId}
    (hc : n.layout.Counts f separator rule previous q sep ρ) (hs : n.layout.slot? f = some s)
    (hp : s.parent = none) (ht : n.layout.slot? q = some t) (hlead : t.lead ≠ none)
    (hσ : separator = σ) : sep = σ := by
  obtain ⟨t', ht', ⟨-, rfl⟩ | ⟨i, r, p, hr, hrp, htp, rfl⟩⟩ := hc.separator_cases ho hs hp
  · exact hσ
  · cases ht.symm.trans ht'
    obtain ⟨u, hu, hrlead⟩ := hl.range i r p hr hrp
    obtain ⟨u', hu', htlead⟩ := hl.slot q t p ht htp
    cases hu.symm.trans hu'
    obtain ⟨x, hx⟩ := Option.ne_none_iff_exists'.1 hlead
    exact h.range i r x hr (hrlead.trans (htlead.symm.trans hx))

end Numbering.Mastered

end Folio
