import Folio.Proofs.Numbering.Ancestors
import Folio.Proofs.Numbering.Sequences
import Mathlib.Data.List.Induction

/-!
# Traversals of a layout

A slot has its parent and its lead from a time before it, and is linked to what comes after it.
`Layout.Chronological` states this for all slots, and claims keep it up as long as leads answer with
slots that exist (`Numbering.chronological_run`). So everything that goes along these references
comes to an end:

* the way down from a slot to the latest one below it (`Layout.Descends`),
* the way along the slots of a range (`Layout.Lists`),
* the names of leads in front of each other (`Layout.Shows`).

Each of these is told without a bound on its steps, and the functions that have one agree with it.
Main statement: `Numbering.traversals_end`.
-/

namespace Folio

@[simp]
theorem Label.lead?_ofLead (lead : Option SlotId) (separator : String) (rule : LabelRule) :
    (ofLead lead separator rule).lead? = lead := by
  cases lead <;> rfl

namespace Layout

/-- What slots, ranges and labels refer to was there before. -/
structure Chronological (l : Layout) : Prop extends l.Leveled where
  home : ∀ q s, l.slot? q = some s → ∃ r, l.range? s.range = some r ∧ r.parent = s.parent
  slot_lead : ∀ q s x, l.slot? q = some s → s.lead = some x → x.index < q.index
  range_lead : ∀ i r x, l.range? i = some r → r.lead = some x → x.index < l.slots.size
  label_lead : ∀ q s label, l.slot? q = some s → s.label = some label → label.lead? = s.lead

variable {l l' : Layout}

/-- A label that is bound leads with the lead of its slot. -/
theorem Sound.lead?_createLabels (hl : l.Sound) {range : RangeId} {incoming : Option LabelRule}
    (h : l.createLabels range incoming = .ok l') {q : SlotId} {t : Slot} {label : Label}
    (ht : l'.slot? q = some t) (hlabel : t.label = some label) :
    label.lead? = t.lead ∨ ∃ s, l.slot? q = some s ∧ s.label = some label := by
  obtain ⟨r, rule, hr, -, rfl⟩ := createLabels_cases h
  by_cases hq : l.Covers range q
  · obtain ⟨r', f, hr', hf, hreach⟩ := hq
    cases hr.symm.trans hr'
    obtain ⟨sep, ρ, hcounts⟩ := hl.exists_counts hreach (hl.first_gt range r f hr hf).1
      r.separator rule none
    obtain ⟨u, -, hbound⟩ := hl.label_bindFrom (l.slots.size + 1) (by omega) hcounts
    rw [hf, hbound] at ht
    cases ht
    cases hlabel
    exact .inl (Label.lead?_ofLead ..)
  · rw [slot?_bindFrom_of_not_reaches _ _ _ _ _ _ _ fun c hc hreach =>
      hq ⟨r, c, hr, hc, hreach⟩] at ht
    exact .inr ⟨t, ht, hlabel⟩

namespace Chronological

/-! ## What operations do -/

theorem empty : ({} : Layout).Chronological where
  toLeveled := .empty
  home q s hs := by simp [slot?] at hs
  slot_lead q s x hs := by simp [slot?] at hs
  range_lead i r x hr := by simp [range?] at hr
  label_lead q s label hs := by simp [slot?] at hs

theorem claimed (h : l.Chronological) {range : RangeId} {r : Range} {opened : Bool}
    {lead : Option SlotId} {pinned : Option Nat} (hc : l.Claimed l' range r opened lead pinned)
    (hlead : ∀ x, lead = some x → x.index < l.slots.size) : l'.Chronological := by
  have hsize := hc.size
  refine ⟨h.toLeveled.claimed hc, fun q t ht => ?_, fun q t x ht hx => ?_, fun i u x hu hx => ?_,
    fun q t label ht hlabel => ?_⟩
  · rcases hc.slot_cases ht with ⟨-, rfl⟩ | ⟨s, hs, rfl⟩
    · exact ⟨_, hc.range_self, rfl⟩
    · rw [Slot.linked_range, Slot.linked_parent]
      obtain ⟨u, hu, hparent⟩ := h.home q s hs
      by_cases hi : s.range = range
      · rw [hi] at hu ⊢
        cases hc.before.symm.trans hu
        exact ⟨_, hc.range_self, hparent⟩
      · exact ⟨u, (hc.range_other hi).trans hu, hparent⟩
  · rcases hc.slot_cases ht with ⟨rfl, rfl⟩ | ⟨s, hs, rfl⟩
    · exact hlead x hx
    · exact h.slot_lead q s x hs (by simpa using hx)
  · have hbefore : x.index < l.slots.size := by
      by_cases hi : i = range
      · subst hi
        cases hc.range_self.symm.trans hu
        exact hlead x hx
      · exact h.range_lead i u x ((hc.range_other hi).symm.trans hu) hx
    omega
  · rcases hc.slot_cases ht with ⟨-, rfl⟩ | ⟨s, hs, rfl⟩
    · cases hlabel
    · rw [Slot.linked_lead]
      exact h.label_lead q s label hs (by simpa using hlabel)

theorem rearranged (h : l.Chronological) (hl : l.Rearranged l') (hl' : l'.Leveled) :
    l'.Chronological := by
  refine ⟨hl', fun q s hs => ?_, fun q s x hs => ?_, fun i r' x hr' hx => ?_,
    fun q s label hs => ?_⟩
  · obtain ⟨r, hr, hparent⟩ := h.home q s ((hl.slot q).symm.trans hs)
    obtain ⟨r', hr', hparent'⟩ := hl.kept _ r hr
    exact ⟨r', hr', hparent'.trans hparent⟩
  · exact h.slot_lead q s x ((hl.slot q).symm.trans hs)
  · rw [hl.size]
    cases hl.range i r' hr' with
    | beside j r hr _ _ _ hlead => exact h.range_lead j r x hr (hlead.symm.trans hx)
    | top _ _ _ hlead => simp [hlead] at hx
    | below j r _ hr _ _ _ _ hlead => exact h.range_lead j r x hr (hlead.symm.trans hx)
  · exact h.label_lead q s label ((hl.slot q).symm.trans hs)

theorem createLabels (h : l.Chronological) {range : RangeId} {incoming : Option LabelRule}
    (hl : l.createLabels range incoming = .ok l') : l'.Chronological := by
  have hr := createLabels_relabeled hl
  refine ⟨h.toLeveled.relabeled hr, fun q t ht => ?_, fun q t x ht hx => ?_, fun i r x hi hx => ?_,
    fun q t label ht hlabel => ?_⟩
  · obtain ⟨_, hs⟩ := hr.symm.slot q t ht
    obtain ⟨r, hi, hparent⟩ := h.home q _ hs
    exact ⟨r, (hr.range? _).trans hi, hparent⟩
  · obtain ⟨_, hs⟩ := hr.symm.slot q t ht
    exact h.slot_lead q _ x hs hx
  · rw [hr.size]
    exact h.range_lead i r x ((hr.range? i).symm.trans hi) hx
  · rcases h.toSound.lead?_createLabels hl ht hlabel with hlead | ⟨s, hs, hold⟩
    · exact hlead
    · have hlead := h.label_lead q s label hs hold
      obtain ⟨_, ht'⟩ := hr.slot q s hs
      cases ht.symm.trans ht'
      exact hlead

end Chronological

/-! ## Along a range -/

/-- From a slot on, or from none, the slots of a sequence are the given ones. -/
inductive Lists (l : Layout) : Option SlotId → List SlotId → Prop
  | stop : Lists l none []
  | next {p : SlotId} {behind : List SlotId} (h : Lists l (l.next? p) behind) :
    Lists l (some p) (p :: behind)

/-- A range holds a slot if it lists it, has it as its latest one, or has claimed it. -/
def Holds (l : Layout) (i : RangeId) (q : SlotId) : Prop :=
  q ∈ l.slotsOf i ∨ l.current i = some q ∨ ∃ s, l.slot? q = some s ∧ s.range = i

variable {p q : SlotId} {start : Option SlotId} {slots : List SlotId}

theorem Sound.lists_chain (h : l.Sound) {fuel : Nat}
    (hstart : ∀ p, start = some p → p.index < l.slots.size ∧ l.slots.size ≤ fuel + p.index) :
    l.Lists start (l.chain fuel start) := by
  induction fuel generalizing start with
  | zero =>
    cases start with
    | none => exact .stop
    | some p =>
      have := hstart p rfl
      omega
  | succ fuel ih =>
    cases start with
    | none => exact .stop
    | some p =>
      refine .next (ih fun q hq => ?_)
      obtain ⟨s, hs, hnext⟩ := next?_eq_some.1 hq
      have hlt := h.next_gt p s q hs hnext
      have hsize := (hstart p rfl).2
      exact ⟨hlt.2, by omega⟩

theorem Sound.lists_slotsOf (h : l.Sound) (i : RangeId) :
    l.Lists ((l.range? i).bind Range.first) (l.slotsOf i) := by
  refine h.lists_chain fun f hf => ?_
  obtain ⟨r, hr, hfirst⟩ := Option.bind_eq_some_iff.1 hf
  exact ⟨(h.first_gt i r f hr hfirst).1, Nat.le_add_right _ _⟩

/-- The slots from one on are that one and later ones. -/
theorem Lists.le_of_mem (hl : l.Lists start slots) (h : l.Sound)
    (hstart : ∀ p, start = some p → p.index < l.slots.size) (hq : q ∈ slots) :
    ∃ p, start = some p ∧ p.index ≤ q.index ∧ q.index < l.slots.size := by
  induction hl with
  | stop => cases hq
  | @next p behind _ ih =>
    refine ⟨p, rfl, ?_⟩
    rcases List.mem_cons.1 hq with rfl | hq
    · exact ⟨Nat.le_refl _, hstart q rfl⟩
    · have hnext : ∀ p', l.next? p = some p' → p.index < p'.index ∧ p'.index < l.slots.size := by
        intro p' hp'
        obtain ⟨s, hs, hn⟩ := next?_eq_some.1 hp'
        exact h.next_gt p s p' hs hn
      obtain ⟨p', hp', hle, hlt⟩ := ih (fun p' hp' => (hnext p' hp').2) hq
      have := (hnext p' hp').1
      exact ⟨by omega, hlt⟩

namespace Chronological

variable {s : Slot} {i : RangeId}

/-- What the range below a slot holds came after the slot. -/
theorem lt_of_holds (h : l.Chronological) (hs : l.slot? p = some s) (hi : s.nested = some i)
    (hq : l.Holds i q) : p.index < q.index ∧ q.index < l.slots.size := by
  obtain ⟨r, hr, hparent, -⟩ := h.nested_parent p s i hs hi
  rcases hq with hlisted | hlatest | ⟨t, ht, hclaimed⟩
  · have hfirst : ∀ f, (l.range? i).bind Range.first = some f →
        p.index < f.index ∧ f.index < l.slots.size := by
      intro f hf
      rw [hr, Option.bind_some] at hf
      obtain ⟨hsize, hlt⟩ := h.first_gt i r f hr hf
      exact ⟨hlt p hparent, hsize⟩
    obtain ⟨f, hf, hle, hsize⟩ := (h.lists_slotsOf i).le_of_mem h.toSound
      (fun f hf => (hfirst f hf).2) hlisted
    have := (hfirst f hf).1
    exact ⟨by omega, hsize⟩
  · refine h.lt_of_below? ?_
    rw [below?, hs, Option.bind_some, hi, Option.bind_some, hlatest]
  · subst hclaimed
    obtain ⟨r', hr', hparent'⟩ := h.home q t ht
    cases hr.symm.trans hr'
    exact ⟨h.slot_parent q t p ht (hparent'.symm.trans hparent), slot?_lt ht⟩

end Chronological

/-! ## Names of leads -/

/-- The label of a slot. -/
def label? (l : Layout) (q : SlotId) : Option Label := (l.slot? q).bind Slot.label

/-- The name of a label is the given text: the name of its rule, behind the name of its lead. -/
inductive Shows (l : Layout) : Label → String → Prop
  | plain (rule : LabelRule) : Shows l (.plain rule) rule.name
  /-- The lead has no label. -/
  | bare {lead : SlotId} (separator : String) (rule : LabelRule) (h : l.label? lead = none) :
    Shows l (.led lead separator rule) rule.name
  | led {lead : SlotId} {label : Label} {front : String} (separator : String) (rule : LabelRule)
    (h : l.label? lead = some label) (hfront : Shows l label front) :
    Shows l (.led lead separator rule)
      (if front = "" then rule.name else front ++ separator ++ rule.name)

namespace Chronological

theorem lt_of_lead? (h : l.Chronological) {label : Label} {x : SlotId}
    (hlabel : l.label? q = some label) (hx : label.lead? = some x) : x.index < q.index := by
  obtain ⟨s, hs, hlabel⟩ := Option.bind_eq_some_iff.1 hlabel
  exact h.slot_lead q s x hs ((h.label_lead q s label hs hlabel).symm.trans hx)

/-- Enough steps to the name of a slot are as good as more. -/
theorem nameAt_eq (h : l.Chronological) {m n : Nat} (hm : q.index < m) (hn : q.index < n) :
    l.nameAt m q = l.nameAt n q := by
  induction m generalizing n q with
  | zero => omega
  | succ m ih =>
    obtain ⟨n, rfl⟩ : ∃ k, n = k + 1 := ⟨n - 1, by omega⟩
    rw [nameAt, nameAt]
    cases hlabel : (l.slot? q).bind Slot.label with
    | none => rfl
    | some label =>
      rw [Option.map_some, Option.map_some]
      cases label with
      | plain rule => rfl
      | led x separator rule =>
        have hlt := h.lt_of_lead? hlabel rfl
        have hx : l.nameAt m x = l.nameAt n x := ih (by omega) (by omega)
        rw [Label.nameWith, Label.nameWith, hx]

/-- The name of a slot is that of its label. -/
theorem name_eq (h : l.Chronological) (q : SlotId) : l.name q = (l.label? q).map l.labelName := by
  cases hlabel : l.label? q with
  | none =>
    rw [name, Option.map_none]
    cases l.slots.size with
    | zero => rfl
    | succ size =>
      rw [label?] at hlabel
      rw [nameAt, hlabel, Option.map_none]
  | some label =>
    obtain ⟨s, hs, -⟩ := Option.bind_eq_some_iff.1 hlabel
    have hq := slot?_lt hs
    rw [name, h.nameAt_eq hq (Nat.lt_succ_of_lt hq), nameAt]
    rw [label?] at hlabel
    rw [hlabel]
    rfl

theorem shows_labelName (h : l.Chronological) (label : Label) :
    l.Shows label (l.labelName label) := by
  -- the names in front are those of earlier and earlier slots
  suffices hbound : ∀ bound label, (∀ x, label.lead? = some x → x.index < bound) →
      l.Shows label (l.labelName label) by
    refine hbound ((label.lead?.map SlotId.index).getD 0 + 1) label fun x hx => ?_
    rw [hx]
    exact Nat.lt_succ_self _
  intro bound
  induction bound with
  | zero =>
    intro label hlead
    cases label with
    | plain rule => exact .plain rule
    | led x separator rule => exact absurd (hlead x rfl) (Nat.not_lt_zero _)
  | succ bound ih =>
    intro label hlead
    cases label with
    | plain rule => exact .plain rule
    | led x separator rule =>
      rw [labelName, Label.nameWith, h.name_eq]
      cases hlabel : l.label? x with
      | none => exact .bare separator rule hlabel
      | some label =>
        refine .led separator rule hlabel (ih label fun y hy => ?_)
        have hy := h.lt_of_lead? hlabel hy
        have hx := hlead x rfl
        omega

end Chronological

end Layout

/-! ## Runs -/

namespace Numbering

open Layout

/-- The answer of the lead that an operation asks. -/
def answer? (n : Numbering) (op : Operation) : Option SlotId :=
  (op.range?.bind fun range => n.leads.lookup range).bind fun lead : Lead => lead n.layout

/-- If an operation asks a lead, the answer is a slot that exists, or none. -/
def Answered (n : Numbering) (op : Operation) : Prop :=
  ∀ x ∈ n.answer? op, (n.layout.slot? x).isSome

instance (n : Numbering) (op : Operation) : Decidable (n.Answered op) :=
  inferInstanceAs (Decidable (∀ x ∈ n.answer? op, (n.layout.slot? x).isSome))

variable {n : Numbering} {op : Operation} {ops : List Operation} {p q : SlotId}

theorem chronological_perform (hop : n.Answered op) (h : n.layout.Chronological) :
    (n.perform op).layout.Chronological := by
  have hl' := leveled_perform h.toLeveled op
  rcases perform_cases h.toSound op with
    ⟨range, incoming, hl⟩ | hl | ⟨range, r, opened, pinned, l, hrange, hc, hl⟩
  · exact h.createLabels hl
  · exact h.rearranged hl hl'
  · refine (h.claimed hc fun x hx => ?_).rearranged hl hl'
    unfold leadFor at hx
    split at hx
    next lead hlookup =>
      have hanswer : n.answer? op = some x := by
        rw [answer?, hrange, Option.bind_some, hlookup, Option.bind_some, hx]
      obtain ⟨s, hs⟩ := Option.isSome_iff_exists.1 (hop x hanswer)
      exact slot?_lt hs
    · exact h.range_lead range r x hc.before hx

/-- After a run whose leads answer with slots that exist, references lead to what was there
before. -/
theorem chronological_run (h : Along Answered {} ops) : (run {} ops).layout.Chronological :=
  h.run_induction (I := fun n => n.layout.Chronological) .empty fun _ _ hop hn =>
    chronological_perform hop hn

/-- A run claims both slots, and the first one before the second. -/
def ClaimedBefore (ops : List Operation) (p q : SlotId) : Prop :=
  (∃ s, (run {} ops).layout.slot? q = some s) ∧ ∃ earlier, earlier <+: ops ∧
    (∃ s, (run {} earlier).layout.slot? p = some s) ∧ (run {} earlier).layout.slot? q = none

/-- Slots are numbered in the order that they are claimed in. -/
theorem claimedBefore_of_lt (hpq : p.index < q.index)
    (hq : q.index < (run {} ops).layout.slots.size) : ClaimedBefore ops p q := by
  refine ⟨slot?_isSome hq, ?_⟩
  induction ops using List.reverseRecOn with
  | nil => exact absurd hq (Nat.not_lt_zero _)
  | append_singleton ops op ih =>
    by_cases hbefore : q.index < (run {} ops).layout.slots.size
    · obtain ⟨earlier, hprefix, hclaimed⟩ := ih hbefore
      exact ⟨earlier, hprefix.trans (List.prefix_append ops [op]), hclaimed⟩
    · -- the last operation has claimed the second slot, and no other one
      have hsize := (size_perform (ordered_run ops).toSound op).2
      rw [run_concat] at hq
      refine ⟨ops, List.prefix_append ops [op], slot?_isSome (by omega), ?_⟩
      exact Array.getElem?_eq_none (by omega)

/-- After a run whose leads answer with slots that exist, the parent and the lead of a slot were
claimed before it, and the slot behind it and what the range below it holds were claimed after it.
So the way down from the latest slot of a range comes to an end, the slots of a range can be
listed, and every label has a name, whatever leads are in front of each other. -/
theorem traversals_end (h : Along Answered {} ops) :
    let l := (run {} ops).layout
    (∀ q s p, l.slot? q = some s → s.parent = some p ∨ s.lead = some p → ClaimedBefore ops p q) ∧
    (∀ q s p, l.slot? q = some s → s.next = some p → ClaimedBefore ops q p) ∧
    (∀ q s i p, l.slot? q = some s → s.nested = some i → l.Holds i p → ClaimedBefore ops q p) ∧
    (∀ i, l.current i = none ∧ l.actual i = none ∨
      ∃ c x, l.current i = some c ∧ l.actual i = some x ∧ l.Descends c x) ∧
    (∀ i, l.Lists ((l.range? i).bind Range.first) (l.slotsOf i)) ∧
    (∀ label, l.Shows label (l.labelName label)) ∧
    ∀ q, l.name q = (l.label? q).map l.labelName := by
  intro l
  have hl : l.Chronological := chronological_run h
  refine ⟨fun q s p hs hp => ?_, fun q s p hs hp => ?_, fun q s i p hs hi hp => ?_, fun i => ?_,
    hl.lists_slotsOf, hl.shows_labelName, hl.name_eq⟩
  · refine claimedBefore_of_lt ?_ (slot?_lt hs)
    exact hp.elim (hl.slot_parent q s p hs) (hl.slot_lead q s p hs)
  · obtain ⟨hlt, hsize⟩ := hl.next_gt q s p hs hp
    exact claimedBefore_of_lt hlt hsize
  · obtain ⟨hlt, hsize⟩ := hl.lt_of_holds hs hi hp
    exact claimedBefore_of_lt hlt hsize
  · cases hc : l.current i with
    | none => exact .inl ⟨rfl, by rw [actual, hc, Option.map_none]⟩
    | some c =>
      obtain ⟨x, -, hx, hdescends, -⟩ := hl.exists_actual hc
      exact .inr ⟨c, x, rfl, hx, hdescends⟩

/-- A table led by a figure, which is led by a section below a section. -/
theorem traversals_end_table :
    let ops : List Operation := [.newRange "section" "" none,
      .setRule ⟨0⟩ "-" (some (.numbered "section" none)),
      .newRange "figure" "" (some (.ofMaster "section" none)),
      .setRule ⟨1⟩ "-" (some (.numbered "figure" none)),
      .newRange "table" "" (some (.ofMaster "figure" none)),
      .setRule ⟨2⟩ "-" (some (.numbered "table" none)),
      .setActive [("section", ⟨0⟩), ("figure", ⟨1⟩)],
      .next ⟨0⟩, .sub ⟨0⟩, .next ⟨3⟩, .next ⟨1⟩, .next ⟨2⟩,
      .createLabels ⟨0⟩ none, .createLabels ⟨1⟩ none, .createLabels ⟨2⟩ none]
    let l := (run {} ops).layout
    Along Answered {} ops ∧ ClaimedBefore ops ⟨2⟩ ⟨3⟩ ∧ ClaimedBefore ops ⟨0⟩ ⟨1⟩ ∧
      l.name ⟨3⟩ = some "1.1-1-1" := by
  intro ops l
  have hops : Along Answered {} ops := by decide
  obtain ⟨hbefore, -, hnested, -, -, -, hname⟩ := traversals_end hops
  refine ⟨hops, hbefore ⟨3⟩ _ ⟨2⟩ rfl (.inr rfl), hnested ⟨0⟩ _ ⟨3⟩ ⟨1⟩ rfl rfl (.inr (.inl rfl)), ?_⟩
  rw [hname]
  rfl

end Numbering

end Folio
