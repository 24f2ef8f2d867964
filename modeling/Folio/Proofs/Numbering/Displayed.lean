import Folio.Proofs.Numbering.Sequences

/-!
# The ordinals that labels show

A walk that binds labels goes along the slots of a range, and below each slot along those of its
nested range. The counter that it carries along one range has two ordinals. The structural one
counts the slots and never starts again. The shown one starts again whenever the lead changes, so
at each slot it is the length of the run of slots with one lead that ends there. Main statement:
`Numbering.ordinals_createLabels`, for the range itself and all ranges nested in it, whatever the
scheme of the rules and however they are composed, as long as the rules stand before their first
label when the walk sets out.

One step of the walk is `LabelRule.EndsRun.advance`, the walk along a range is `Layout.Enters.along`,
and `Layout.Within.enters` goes from range to range.
-/

namespace Folio

/-! ## Runs at the end of a list -/

/-- The longest run of equal entries at the end of a list has `m` entries, at least one. -/
inductive EndsInRun {α : Type} (xs : List α) (m : Nat) : Prop
  | intro (front : List α) (x : α) (pos : 0 < m) (eq : xs = front ++ List.replicate m x)
    (longest : front.getLast? ≠ some x)

namespace EndsInRun

variable {α : Type} {xs : List α} {m : Nat} {x y : α}

theorem singleton (x : α) : EndsInRun [x] 1 := .intro [] x Nat.one_pos rfl (by simp)

/-- An entry that equals the last one makes the run longer. -/
theorem concat_same (h : EndsInRun xs m) (hx : xs.getLast? = some x) :
    EndsInRun (xs ++ [x]) (m + 1) := by
  obtain ⟨front, z, hpos, rfl, hlongest⟩ := h
  obtain ⟨k, rfl⟩ : ∃ k, m = k + 1 := ⟨m - 1, by omega⟩
  have hz : z = x := by simpa [List.getLast?_append, List.getLast?_replicate] using hx
  subst hz
  refine .intro front z (Nat.succ_pos _) ?_ hlongest
  rw [List.replicate_succ' (n := k + 1), List.append_assoc]

/-- Another entry starts a run. -/
theorem concat_other (hx : xs.getLast? ≠ some y) : EndsInRun (xs ++ [y]) 1 :=
  .intro xs y Nat.one_pos rfl hx

end EndsInRun

/-! ## Steps of a counter -/

namespace LabelRule

/-- The counter of the part of a rule that counts. -/
def counter : LabelRule → Counter
  | count _ c => c
  | composed _ _ current => current.counter

/-- The counter stands before its first label. -/
def AtStart (rule : LabelRule) : Prop :=
  rule.counter.place.ordinal = 0 ∧ rule.counter.place.shown = 0

instance (rule : LabelRule) : Decidable rule.AtStart :=
  inferInstanceAs (Decidable (_ ∧ _))

/-- The counter stands at the last one of a sequence of labels with the given leads. -/
structure EndsRun (rule : LabelRule) (leads : List (Option SlotId)) : Prop where
  ordinal : rule.counter.place.ordinal = leads.length
  shown : EndsInRun leads rule.counter.place.shown

variable {rule own : LabelRule} {leads : List (Option SlotId)} {lead previous : Option SlotId}

@[simp]
theorem counter_next (rule : LabelRule) : rule.next.counter = rule.counter.next := by
  induction rule with
  | count => rfl
  | composed _ _ _ _ ih => exact ih

@[simp]
theorem counter_sub (rule : LabelRule) : rule.sub.counter = rule.counter.sub := by
  induction rule with
  | count => rfl
  | composed _ _ _ _ ih => exact ih

@[simp]
theorem counter_reset (rule : LabelRule) : rule.reset.counter = rule.counter.reset := by
  induction rule with
  | count => rfl
  | composed _ _ _ _ ih => exact ih

@[simp]
theorem counter_withLevel (rule : LabelRule) (level : Option Nat) :
    (rule.withLevel level).counter = rule.counter.withLevel level := by
  induction rule with
  | count => rfl
  | composed _ _ _ _ ih => exact ih

theorem AtStart.withLevel (h : rule.AtStart) (level : Option Nat) :
    (rule.withLevel level).AtStart := by
  rw [AtStart, counter_withLevel]
  exact h

theorem atStart_sub (rule : LabelRule) : rule.sub.AtStart := by
  rw [AtStart, counter_sub]
  exact ⟨rfl, rfl⟩

theorem EndsRun.withLevel (h : rule.EndsRun leads) (level : Option Nat) :
    (rule.withLevel level).EndsRun leads := by
  have hcounter := rule.counter_withLevel level
  exact ⟨by rw [hcounter]; exact h.ordinal, by rw [hcounter]; exact h.shown⟩

/-- The first step starts a run, whatever lead comes before it. -/
theorem AtStart.advance (h : rule.AtStart) (previous lead : Option SlotId) :
    (Layout.advance rule previous lead).EndsRun [lead] := by
  have hordinal : (Layout.advance rule previous lead).counter.place.ordinal = 1 := by
    unfold Layout.advance
    split <;> simp [Counter.next, Counter.reset, h.1]
  have hshown : (Layout.advance rule previous lead).counter.place.shown = 1 := by
    unfold Layout.advance
    split <;> simp [Counter.next, Counter.reset, h.2]
  exact ⟨hordinal, hshown ▸ .singleton lead⟩

/-- A step goes on with the run if the lead stays, and starts one if it changes. -/
theorem EndsRun.advance (h : rule.EndsRun leads) (hprevious : leads.getLast? = some previous)
    (lead : Option SlotId) : (Layout.advance rule previous lead).EndsRun (leads ++ [lead]) := by
  unfold Layout.advance
  split
  next hsame =>
    subst hsame
    refine ⟨?_, ?_⟩
    · simp [Counter.next, h.ordinal]
    · rw [counter_next]
      exact h.shown.concat_same hprevious
  next hchanged =>
    refine ⟨?_, ?_⟩
    · simp [Counter.next, Counter.reset, h.ordinal]
    · rw [counter_next, counter_reset]
      refine EndsInRun.concat_other fun hlast => hchanged ?_
      exact Option.some.inj (hlast.symm.trans hprevious)

end LabelRule

/-- Below a slot a range starts to count, with its own rule or with that of the slot. -/
theorem Range.atStart_ruleBelow {r : Range} {rule : LabelRule} (hrule : rule.AtStart)
    (hown : ∀ own, r.rule = some own → own.AtStart) : (r.ruleBelow rule).AtStart := by
  unfold Range.ruleBelow
  refine LabelRule.AtStart.withLevel ?_ _
  cases hr : r.rule with
  | none => exact hrule
  | some own =>
    cases rule.parent? with
    | none => exact hown own hr
    | some above => exact (hown own hr).withLevel _

/-- The rule with which a range counts, given the rule that it continues, if any. -/
def Range.ruleFor? (r : Range) (incoming : Option LabelRule) : Option LabelRule :=
  match incoming with
  | some rule => some (r.ruleBelow rule)
  | none => r.ruleAtTop?

namespace Layout

/-- The range `i` is the range itself, or is nested in it at some depth. -/
inductive Within (l : Layout) (range : RangeId) : RangeId → Prop
  | refl : Within l range range
  | nested {i j : RangeId} {q : SlotId} {s : Slot} (hi : Within l range i) (hq : q ∈ l.slotsOf i)
    (hs : l.slot? q = some s) (hj : s.nested = some j) : Within l range j

/-- The lead that a slot keeps. -/
def leadOf (l : Layout) (q : SlotId) : Option SlotId := (l.slot? q).bind Slot.lead

/-- Each rule that is set on a range stands before its first label. -/
def RulesAtStart (l : Layout) : Prop :=
  ∀ i r own, l.range? i = some r → r.rule = some own → own.AtStart

variable {l l' : Layout} {start f q : SlotId} {separator sep : String} {rule ρ : LabelRule}
  {previous : Option SlotId} {range i : RangeId} {r : Range} {s : Slot}

theorem leadOf_of_slot? (hs : l.slot? q = some s) : l.leadOf q = s.lead := by
  rw [leadOf, hs, Option.bind_some]

namespace Relabeled

/-- What does not look at the label of a slot stays. -/
theorem slot?_bind {α : Type} (h : l.Relabeled l') {g : Slot → Option α}
    (hg : ∀ s label, g { s with label } = g s) (q : SlotId) :
    (l'.slot? q).bind g = (l.slot? q).bind g := by
  cases hs : l.slot? q with
  | some s =>
    obtain ⟨label, hs'⟩ := h.slot q s hs
    rw [hs', Option.bind_some, Option.bind_some, hg]
  | none =>
    cases hs' : l'.slot? q with
    | none => rfl
    | some t =>
      obtain ⟨label, ht⟩ := h.symm.slot q t hs'
      cases hs.symm.trans ht

theorem leadOf_eq (h : l.Relabeled l') (q : SlotId) : l'.leadOf q = l.leadOf q :=
  h.slot?_bind (fun _ _ => rfl) q

theorem slotsOf_eq (h : l.Relabeled l') (i : RangeId) : l'.slotsOf i = l.slotsOf i := by
  have hforth := (Reworked.relabeled h).extend.slotsOf_prefix i
  have hback := (Reworked.relabeled h.symm).extend.slotsOf_prefix i
  exact hback.eq_of_length_le hforth.length_le

theorem within (h : l.Relabeled l') (hi : l.Within range i) : l'.Within range i := by
  induction hi with
  | refl => exact .refl
  | nested _ hq hs hj ih =>
    obtain ⟨label, hs'⟩ := h.slot _ _ hs
    exact .nested ih (h.slotsOf_eq _ ▸ hq) hs' hj

end Relabeled

/-! ## Walks along ranges -/

/-- A range that lists slots has a first one, and lists it first. -/
theorem Sound.exists_first (h : l.Sound) (hq : q ∈ l.slotsOf i) :
    ∃ r f s, l.range? i = some r ∧ r.first = some f ∧ l.slot? f = some s ∧
      (l.slotsOf i)[0]? = some f := by
  unfold slotsOf at hq ⊢
  cases hf : (l.range? i).bind Range.first with
  | none =>
    rw [hf] at hq
    simp at hq
  | some f =>
    obtain ⟨r, hr, hfirst⟩ := Option.bind_eq_some_iff.1 hf
    obtain ⟨s, hs⟩ := slot?_isSome (h.first_gt i r f hr hfirst).1
    have hlt := slot?_lt hs
    obtain ⟨m, hm⟩ : ∃ m, l.slots.size = m + 1 := ⟨l.slots.size - 1, by omega⟩
    refine ⟨r, f, s, hr, hfirst, hs, ?_⟩
    rw [hm]
    rfl

/-- In a chain, each slot but the first one is the next one of the slot before. -/
theorem chain_succ {fuel k : Nat} {cursor : Option SlotId}
    (hq : (l.chain fuel cursor)[k + 1]? = some q) :
    ∃ p, (l.chain fuel cursor)[k]? = some p ∧ l.next? p = some q := by
  induction fuel generalizing k cursor with
  | zero => cases cursor <;> simp [chain] at hq
  | succ fuel ih =>
    cases cursor with
    | none => simp at hq
    | some p =>
      change (l.chain fuel (l.next? p))[k]? = some q at hq
      cases k with
      | succ k => exact ih hq
      | zero =>
        refine ⟨p, rfl, ?_⟩
        cases hn : l.next? p with
        | none => simp [hn] at hq
        | some n =>
          rw [hn] at hq
          cases fuel with
          | zero => simp [chain] at hq
          | succ fuel => exact hq

/-- A walk comes to the first slot of a range with a rule that stood before its first label. -/
def Enters (l : Layout) (start : SlotId) (separator : String) (rule : LabelRule)
    (previous : Option SlotId) (i : RangeId) : Prop :=
  ∃ r f s ρ, l.range? i = some r ∧ r.first = some f ∧ l.slot? f = some s ∧ ρ.AtStart ∧
    l.Counts start separator rule previous f r.separator (advance ρ none s.lead)

/-- Along a range that a walk enters, the rule counts the slots, and those since the lead changed. -/
theorem Enters.along (h : l.Enters start separator rule previous i) (hl : l.Sound) {k : Nat}
    (hq : (l.slotsOf i)[k]? = some q) :
    ∃ sep ρ, l.Counts start separator rule previous q sep ρ ∧
      ρ.EndsRun (((l.slotsOf i).take (k + 1)).map l.leadOf) := by
  induction k generalizing q with
  | zero =>
    obtain ⟨r, f, s, ρ, hr, hf, hs, hρ, hc⟩ := h
    obtain ⟨r', f', s', hr', hf', hs', hzero⟩ := hl.exists_first (List.mem_of_getElem? hq)
    cases hr.symm.trans hr'
    cases hf.symm.trans hf'
    cases hq.symm.trans hzero
    refine ⟨r.separator, _, hc, ?_⟩
    rw [List.take_add_one, hq, List.take_zero]
    simpa [leadOf_of_slot? hs] using hρ.advance none s.lead
  | succ k ih =>
    obtain ⟨p, hp, hn⟩ := chain_succ hq
    obtain ⟨sep, ρ, hc, hrun⟩ := ih hp
    obtain ⟨s, hs, hnext⟩ := next?_eq_some.1 hn
    obtain ⟨t, ht⟩ := slot?_isSome (hl.next_gt p s q hs hnext).2
    refine ⟨sep, _, .next s t hc hs hnext ht, ?_⟩
    have hlast : (((l.slotsOf i).take (k + 1)).map l.leadOf).getLast? = some s.lead := by
      rw [List.take_add_one, show (l.slotsOf i)[k]? = some p from hp]
      simp [leadOf_of_slot? hs]
    rw [List.take_add_one, hq]
    simpa [leadOf_of_slot? ht] using hrun.advance hlast t.lead

/-- A walk that enters a range enters those nested in it. -/
theorem Enters.nested {j : RangeId} (h : l.Enters start separator rule previous i) (hl : l.Sound)
    (hrules : l.RulesAtStart) (hq : q ∈ l.slotsOf i) (hs : l.slot? q = some s)
    (hj : s.nested = some j) {r : Range} (hr : l.range? j = some r) (hf : r.first = some f) :
    l.Enters start separator rule previous j := by
  obtain ⟨k, hk⟩ := List.mem_iff_getElem?.1 hq
  obtain ⟨sep, ρ, hc, -⟩ := h.along hl hk
  obtain ⟨t, ht⟩ := slot?_isSome (hl.first_gt j r f hr hf).1
  exact ⟨r, f, t, _, hr, hf, ht,
    Range.atStart_ruleBelow (LabelRule.atStart_sub _) fun own hown => hrules j r own hr hown,
    .nested s t j r hc hs hj hr hf ht⟩

/-- A walk from the first slot of a range enters it, and all ranges with slots nested in it. -/
theorem Within.enters (hi : l.Within range i) (hl : l.Sound) (hrules : l.RulesAtStart)
    (hr : l.range? range = some r) (hf : r.first = some f) (hrule : rule.AtStart)
    (hq : q ∈ l.slotsOf i) : l.Enters f r.separator rule none i := by
  induction hi generalizing q with
  | refl =>
    obtain ⟨r', f', s, hr', hf', hs, -⟩ := hl.exists_first hq
    cases hr.symm.trans hr'
    cases hf.symm.trans hf'
    exact ⟨r, f, s, rule, hr, hf, hs, hrule, .start s hs⟩
  | nested _ hp hs hj ih =>
    obtain ⟨u, g, t, hu, hg, -⟩ := hl.exists_first hq
    exact (ih hp).nested hl hrules hp hs hj hu hg

/-- Where ranges with slots are nested, the outermost one has slots. -/
theorem Within.exists_first (hi : l.Within range i) (hl : l.Sound) (hq : q ∈ l.slotsOf i) :
    ∃ r f, l.range? range = some r ∧ r.first = some f := by
  induction hi generalizing q with
  | refl =>
    obtain ⟨r, f, -, hr, hf, -⟩ := hl.exists_first hq
    exact ⟨r, f, hr, hf⟩
  | nested _ hp _ _ ih => exact ih hp

/-- The labels that are created along a range and the ranges nested in it. -/
theorem Sound.endsRun_createLabels (hl : l.Sound) (hrules : l.RulesAtStart)
    (hr : l.range? range = some r) {incoming : Option LabelRule}
    (hrule : ∀ rule, r.ruleFor? incoming = some rule → rule.AtStart)
    (h : l.createLabels range incoming = .ok l') (hi : l.Within range i) {k : Nat}
    (hq : (l.slotsOf i)[k]? = some q) :
    ∃ s label, l'.slot? q = some s ∧ s.label = some label ∧
      label.rule.EndsRun (((l.slotsOf i).take (k + 1)).map l.leadOf) := by
  obtain ⟨u, rule, hu, heff, rfl⟩ := createLabels_cases h
  cases hr.symm.trans hu
  have hmem := List.mem_of_getElem? hq
  obtain ⟨u, f, hu, hf⟩ := hi.exists_first hl hmem
  cases hr.symm.trans hu
  obtain ⟨sep, ρ, hc, hrun⟩ :=
    (hi.enters hl hrules hr hf (hrule rule heff) hmem).along hl hq
  obtain ⟨t, -, ht⟩ := hl.label_bindFrom (l.slots.size + 1) (by omega) hc
  rw [hf]
  refine ⟨_, _, ht, rfl, ?_⟩
  have hbound : ∀ bound, (Label.ofLead t.lead sep bound).rule = bound := by
    intro bound
    cases t.lead <;> rfl
  rw [hbound]
  exact hrun.withLevel _

end Layout

namespace Numbering

open Layout

/-- After any run of operations in which the rules set on ranges stand before their first label,
labels are created for a range with a rule that stands there too. Then the labels along the range,
and along each range nested in it, have the structural ordinals 1, 2, 3, …, and the ordinal that
the `k`-th of them shows is the length of the longest run of slots with one lead, or without a
lead, that ends there. -/
theorem ordinals_createLabels (ops : List Operation) (range : RangeId)
    (incoming : Option LabelRule) {r : Range} {n' : Numbering}
    (hrules : (run {} ops).layout.RulesAtStart)
    (hr : (run {} ops).layout.range? range = some r)
    (hrule : ∀ rule, r.ruleFor? incoming = some rule → rule.AtStart)
    (h : (run {} ops).createLabels range incoming = .ok n') {i : RangeId}
    (hi : n'.layout.Within range i) {k : Nat} {slot : SlotId}
    (hslot : (n'.layout.slotsOf i)[k]? = some slot) :
    ∃ s label, n'.layout.slot? slot = some s ∧ s.label = some label ∧
      label.rule.counter.place.ordinal = k + 1 ∧
      EndsInRun (((n'.layout.slotsOf i).take (k + 1)).map n'.layout.leadOf)
        label.rule.counter.place.shown := by
  obtain ⟨hl, -⟩ := createLabels_layout h
  have hsame := createLabels_relabeled hl
  rw [hsame.slotsOf_eq] at hslot
  obtain ⟨s, label, hs, hlabel, hrun⟩ := (ordered_run ops).toSound.endsRun_createLabels hrules hr
    hrule hl (hsame.symm.within hi) hslot
  refine ⟨s, label, hs, hlabel, ?_, ?_⟩
  · obtain ⟨hlength, -⟩ := List.getElem?_eq_some_iff.1 hslot
    rw [hrun.ordinal, List.length_map, List.length_take]
    omega
  · have hleads : n'.layout.leadOf = (run {} ops).layout.leadOf := funext hsame.leadOf_eq
    rw [hsame.slotsOf_eq, hleads]
    exact hrun.shown

/-- The range in use for sections changes and changes back. The figures that follow it then have the
leads 0, 1, 0, 0. -/
theorem ordinals_createLabels_returning :
    let ops : List Operation :=
      [.newRange "section" "" none, .newRange "section" "" none, .next ⟨0⟩, .next ⟨1⟩,
        .newRange "figure" "" (some (.ofMaster "section" none)),
        .setRule ⟨2⟩ "-" (some (.freeForm "figure" default none)),
        .setActive [("section", ⟨0⟩)], .next ⟨2⟩, .setActive [("section", ⟨1⟩)], .next ⟨2⟩,
        .setActive [("section", ⟨0⟩)], .next ⟨2⟩, .next ⟨2⟩]
    (run {} ops).layout.RulesAtStart ∧ ∃ n' s label,
      (run {} ops).createLabels ⟨2⟩ none = .ok n' ∧ n'.layout.slot? ⟨5⟩ = some s ∧
      s.label = some label ∧ label.rule.counter.place.ordinal = 4 ∧
      EndsInRun [some (⟨0⟩ : SlotId), some ⟨1⟩, some ⟨0⟩, some ⟨0⟩] label.rule.counter.place.shown := by
  intro ops
  have hrules : (run {} ops).layout.RulesAtStart := by
    have hall : ∀ r ∈ (run {} ops).layout.ranges, ∀ own ∈ r.rule, own.AtStart := by decide +kernel
    exact fun i r own hr hown => hall r (Array.mem_of_getElem? hr) own hown
  obtain ⟨n', hn⟩ : ∃ n', (run {} ops).createLabels ⟨2⟩ none = .ok n' := ⟨_, rfl⟩
  have hrule : ∀ r, (run {} ops).layout.range? ⟨2⟩ = some r →
      ∀ rule, r.ruleFor? none = some rule → rule.AtStart := by decide +kernel
  have hsame := createLabels_relabeled (createLabels_layout hn).1
  have hslots : n'.layout.slotsOf ⟨2⟩ = [⟨2⟩, ⟨3⟩, ⟨4⟩, ⟨5⟩] := by
    rw [hsame.slotsOf_eq]
    decide +kernel
  have hleads : (n'.layout.slotsOf ⟨2⟩).map n'.layout.leadOf =
      [some ⟨0⟩, some ⟨1⟩, some ⟨0⟩, some ⟨0⟩] := by
    rw [hslots, funext hsame.leadOf_eq]
    decide +kernel
  obtain ⟨s, label, hs, hlabel, hordinal, hshown⟩ := ordinals_createLabels ops ⟨2⟩ none hrules rfl
    (hrule _ rfl) hn .refl (show (n'.layout.slotsOf ⟨2⟩)[3]? = some ⟨5⟩ by rw [hslots]; rfl)
  refine ⟨hrules, n', s, label, hn, hs, hlabel, hordinal, ?_⟩
  rw [← hleads]
  simpa [hslots] using hshown

end Numbering

end Folio
