import Folio.Proofs.Numbering.Runs

/-!
# What creating labels does

`Layout.Binds` is the walk of `Layout.bindFrom` without its fuel: it lists the slots that get a label
in the order they get it. In a sound layout the fuel suffices, so the walk comes to its end
(`Layout.Sound.exists_binds`), and it lists each slot that can be reached, once (`Binds.mem_iff`,
`Binds.nodup`). A walk always has a rule to go on with below a slot. So creating labels can only
fail at its start, where the range has no rule and none is given
(`Numbering.createLabels_run`).
-/

namespace Folio

namespace Layout

/-- The layout with a label bound to a slot. -/
def withLabel (l : Layout) (id : SlotId) (label : Label) : Layout :=
  l.modifySlot id fun s => { s with label := some label }

/-- A walk binds labels to the slots from a cursor on and to those below them. It lists them and
leads from one layout to another. -/
inductive Binds : String → LabelRule → Option SlotId → Option SlotId → Layout → List SlotId →
    Layout → Prop
  | stop (separator : String) (rule : LabelRule) (previous : Option SlotId) (l : Layout) :
    Binds separator rule previous none l [] l
  | leaf {separator : String} {rule bound : LabelRule} {previous : Option SlotId} {l l' : Layout}
    {id : SlotId} {behind : List SlotId} (s : Slot) (hs : l.slot? id = some s)
    (hi : s.nested = none) (hb : bound = (advance rule previous s.lead).withLevel s.pinned)
    (hbehind : Binds separator (advance rule previous s.lead) s.lead s.next
      (l.withLabel id (.ofLead s.lead separator bound)) behind l') :
    Binds separator rule previous (some id) l (id :: behind) l'
  | branch {separator : String} {rule bound : LabelRule} {previous : Option SlotId}
    {l l' l'' : Layout} {id : SlotId} {below behind : List SlotId} {i : RangeId} (s : Slot)
    (r : Range) (hs : l.slot? id = some s) (hi : s.nested = some i) (hr : l.range? i = some r)
    (hb : bound = (advance rule previous s.lead).withLevel s.pinned)
    (hbelow : Binds r.separator (r.ruleBelow bound.sub) none r.first
      (l.withLabel id (.ofLead s.lead separator bound)) below l')
    (hbehind : Binds separator (advance rule previous s.lead) s.lead s.next l' behind l'') :
    Binds separator rule previous (some id) l (id :: (below ++ behind)) l''

variable {l l' : Layout} {separator : String} {rule : LabelRule} {previous cursor : Option SlotId}
  {visited : List SlotId} {p q c : SlotId} {s : Slot}

theorem Relabeled.withLabel (l : Layout) (id : SlotId) (label : Label) :
    l.Relabeled (l.withLabel id label) :=
  .modifySlot l id (some label)

/-- The ways to go from a slot: to stay, to go on behind it, or to go on below it. -/
theorem reaches_iff (hs : l.slot? p = some s) : l.Reaches p q ↔ q = p ∨
    (∃ n, s.next = some n ∧ l.Reaches n q) ∨
    ∃ i r f, s.nested = some i ∧ l.range? i = some r ∧ r.first = some f ∧ l.Reaches f q := by
  constructor
  · intro h
    rcases h.cases_head with rfl | ⟨c, hl, hc⟩
    · exact .inl rfl
    · rcases hl with ⟨t, ht, hn⟩ | ⟨t, i, r, ht, hi, hr, hf⟩ <;> cases hs.symm.trans ht
      · exact .inr (.inl ⟨c, hn, hc⟩)
      · exact .inr (.inr ⟨i, r, c, hi, hr, hf, hc⟩)
  · rintro (rfl | ⟨n, hn, hq⟩ | ⟨i, r, f, hi, hr, hf, hq⟩)
    · exact .refl
    · exact .head (.next s hs hn) hq
    · exact .head (.nested s i r hs hi hr hf) hq

namespace Binds

theorem relabeled (h : Binds separator rule previous cursor l visited l') : l.Relabeled l' := by
  induction h with
  | stop separator rule previous l => exact .refl l
  | leaf s hs hi hb _ ih => exact (Relabeled.withLabel _ _ _).trans ih
  | branch s r hs hi hr hb _ _ ihbelow ihbehind =>
    exact (Relabeled.withLabel _ _ _).trans (ihbelow.trans ihbehind)

/-- A slot that the walk does not come to stays as it is. -/
theorem slot?_of_not_mem (h : Binds separator rule previous cursor l visited l')
    (hq : q ∉ visited) : l'.slot? q = l.slot? q := by
  induction h with
  | stop => rfl
  | leaf s hs hi hb _ ih =>
    have hne := List.ne_of_not_mem_cons hq
    rw [ih (List.not_mem_of_not_mem_cons hq), withLabel, slot?_modifySlot, if_neg hne]
  | branch s r hs hi hr hb _ _ ihbelow ihbehind =>
    have hne := List.ne_of_not_mem_cons hq
    have hmem := List.not_mem_of_not_mem_cons hq
    rw [ihbehind fun h => hmem (List.mem_append_right _ h),
      ihbelow fun h => hmem (List.mem_append_left _ h), withLabel, slot?_modifySlot, if_neg hne]

/-- The walk comes to the slots that can be reached from its cursor. -/
theorem mem_iff (h : Binds separator rule previous cursor l visited l') :
    q ∈ visited ↔ ∃ c, cursor = some c ∧ l.Reaches c q := by
  induction h with
  | stop => simp
  | @leaf _ _ _ _ l _ id _ s hs hi hb _ ih =>
    have hl := Relabeled.withLabel l id
    simp only [List.mem_cons, ih, (hl _).reaches_iff, Option.some.injEq, exists_eq_left',
      reaches_iff hs, hi, reduceCtorEq, false_and, exists_false, or_false]
  | @branch _ _ _ _ l _ _ id _ _ i s r hs hi hr hb hbelow _ ihbelow ihbehind =>
    have hl := Relabeled.withLabel l id
    have hl' := (hl _).trans hbelow.relabeled
    have hdown : (∃ i r f, s.nested = some i ∧ l.range? i = some r ∧ r.first = some f ∧
        l.Reaches f q) ↔ ∃ f, r.first = some f ∧ l.Reaches f q := by
      constructor
      · rintro ⟨j, u, f, hj, hu, hf, hq⟩
        cases hi.symm.trans hj
        cases hr.symm.trans hu
        exact ⟨f, hf, hq⟩
      · rintro ⟨f, hf, hq⟩
        exact ⟨i, r, f, hi, hr, hf, hq⟩
    simp only [List.mem_cons, List.mem_append, ihbelow, ihbehind, (hl _).reaches_iff,
      hl'.reaches_iff, Option.some.injEq, exists_eq_left', reaches_iff hs, hdown]
    rw [or_comm (a := ∃ f, r.first = some f ∧ l.Reaches f q)]

/-- The walk comes to no slot twice. -/
theorem nodup (h : Binds separator rule previous cursor l visited l') (hl : l.Sound) :
    visited.Nodup := by
  induction h with
  | stop => exact List.nodup_nil
  | @leaf _ _ _ _ l _ id _ s hs hi hb hbehind ih =>
    have hlabel := Relabeled.withLabel l id
    refine List.nodup_cons.2 ⟨fun hmem => ?_, ih ((hlabel _).sound hl)⟩
    obtain ⟨n, hn, hreach⟩ := hbehind.mem_iff.1 hmem
    have hle := hl.reaches_le ((hlabel _).reaches_iff.1 hreach)
    have hlt := hl.link_lt (.next s hs hn)
    omega
  | @branch _ _ _ _ l _ _ id _ _ i s r hs hi hr hb hbelow hbehind ihbelow ihbehind =>
    have hlabel := Relabeled.withLabel l id
    have hl' := (hlabel _).trans hbelow.relabeled
    have hdown : ∀ {q}, q ∈ _ → ∃ f, r.first = some f ∧ l.Reaches f q := fun hq =>
      let ⟨f, hf, hreach⟩ := hbelow.mem_iff.1 hq
      ⟨f, hf, (hlabel _).reaches_iff.1 hreach⟩
    have hon : ∀ {q}, q ∈ _ → ∃ n, s.next = some n ∧ l.Reaches n q := fun hq =>
      let ⟨n, hn, hreach⟩ := hbehind.mem_iff.1 hq
      ⟨n, hn, hl'.reaches_iff.1 hreach⟩
    refine List.nodup_cons.2 ⟨fun hmem => ?_, List.nodup_append.2 ⟨ihbelow ((hlabel _).sound hl),
      ihbehind (hl'.sound hl), ?_⟩⟩
    · rcases List.mem_append.1 hmem with hmem | hmem
      · obtain ⟨f, hf, hreach⟩ := hdown hmem
        have hle := hl.reaches_le hreach
        have hlt := hl.link_lt (.nested s i r hs hi hr hf)
        omega
      · obtain ⟨n, hn, hreach⟩ := hon hmem
        have hle := hl.reaches_le hreach
        have hlt := hl.link_lt (.next s hs hn)
        omega
    · rintro q hq _ hq' rfl
      obtain ⟨f, hf, hfq⟩ := hdown hq
      obtain ⟨n, hn, hnq⟩ := hon hq'
      exact hl.not_reaches_both hs hn hi hr hf hfq hnq

end Binds

/-- With as much fuel as there are slots from the cursor on, the walk comes to its end. -/
theorem Sound.exists_binds (h : l.Sound) (fuel : Nat)
    (hc : ∀ c, cursor = some c → c.index < l.slots.size ∧ l.slots.size < fuel + c.index) :
    ∃ visited, Binds separator rule previous cursor l visited
      (bindFrom fuel separator rule previous cursor l) := by
  induction fuel generalizing separator rule previous cursor l with
  | zero =>
    cases cursor with
    | none => exact ⟨[], .stop ..⟩
    | some c =>
      have hlt := hc c rfl
      omega
  | succ fuel ih =>
    cases cursor with
    | none => exact ⟨[], .stop ..⟩
    | some c =>
      obtain ⟨hlt, hfuel⟩ := hc c rfl
      obtain ⟨s, hs⟩ := slot?_isSome hlt
      rw [bindFrom_some fuel l separator rule previous hs]
      generalize hb : (advance rule previous s.lead).withLevel s.pinned = bound
      have hl₁ := Relabeled.withLabel l c (.ofLead s.lead separator bound)
      change ∃ visited, Binds separator rule previous (some c) l visited (bindFrom fuel separator
        (advance rule previous s.lead) s.lead s.next
          (bindBelow fuel s bound (l.withLabel c (.ofLead s.lead separator bound))))
      generalize heq : l.withLabel c (.ofLead s.lead separator bound) = l₁ at hl₁ ⊢
      -- What comes behind the slot has less fuel left, but lies further on.
      have hbehind : ∀ l' : Layout, l.Relabeled l' → ∃ visited, Binds separator
          (advance rule previous s.lead) s.lead s.next l' visited
            (bindFrom fuel separator (advance rule previous s.lead) s.lead s.next l') := by
        intro l' hl'
        refine ih (hl'.sound h) fun n hn => ?_
        have hnext := h.next_gt c s n hs hn
        rw [hl'.size]
        omega
      cases hi : s.nested with
      | none =>
        obtain ⟨behind, hbehind⟩ := hbehind l₁ hl₁
        have hleaf : bindBelow fuel s bound l₁ = l₁ := by rw [bindBelow, hi, Option.bind_none]
        rw [hleaf]
        exact ⟨c :: behind, .leaf s hs hi hb.symm (heq ▸ hbehind)⟩
      | some i =>
        obtain ⟨r, hr, -⟩ := h.nested_parent c s i hs hi
        have hbranch : bindBelow fuel s bound l₁ =
            bindFrom fuel r.separator (r.ruleBelow bound.sub) none r.first l₁ := by
          rw [bindBelow, hi, Option.bind_some, hl₁.range?, hr]
        obtain ⟨below, hbelow⟩ : ∃ below, Binds r.separator (r.ruleBelow bound.sub) none r.first l₁
            below (bindFrom fuel r.separator (r.ruleBelow bound.sub) none r.first l₁) := by
          refine ih (hl₁.sound h) fun f hf => ?_
          have hfirst := h.first_gt i r f hr hf
          have hdown := h.link_lt (.nested s i r hs hi hr hf)
          rw [hl₁.size]
          omega
        obtain ⟨behind, hbehind⟩ := hbehind _ (hl₁.trans hbelow.relabeled)
        rw [hbranch]
        exact ⟨c :: (below ++ behind), .branch s r hs hi hr hb.symm (heq ▸ hbelow) hbehind⟩

end Layout

namespace Numbering

open Layout

/-- After any run, creating labels in a range fails exactly if the range has no rule and none is
given, and then changes nothing. Else a walk from the first slot of the range comes to its end. It
binds one label to each slot that the range covers, and leaves all the rest as it is. -/
theorem createLabels_run (ops : List Operation) (range : RangeId) (incoming : Option LabelRule)
    {r : Range} (hr : (run {} ops).layout.range? range = some r) :
    let n := run {} ops
    (n.createLabels range incoming = .error (.missingRule r.typ) ↔ r.rule = none ∧ incoming = none) ∧
    (r.rule = none ∧ incoming = none → n.perform (.createLabels range incoming) = n) ∧
    (¬ (r.rule = none ∧ incoming = none) → ∃ n' rule visited,
      n.createLabels range incoming = .ok n' ∧
      Binds r.separator rule none r.first n.layout visited n'.layout ∧ visited.Nodup ∧
      (∀ q, q ∈ visited ↔ n.layout.Covers range q) ∧
      (∀ q s, n.layout.slot? q = some s → q ∈ visited →
        ∃ label, n'.layout.slot? q = some { s with label := some label }) ∧
      (∀ q, q ∉ visited → n'.layout.slot? q = n.layout.slot? q) ∧
      n'.layout.slots.size = n.layout.slots.size ∧ n'.layout.ranges = n.layout.ranges ∧
      n'.layout.active = n.layout.active ∧ n'.leads = n.leads) := by
  intro n
  have hs : n.layout.Sound := (ordered_run ops).toSound
  have hmissing : r.rule = none ∧ incoming = none →
      n.createLabels range incoming = .error (.missingRule r.typ) := by
    rintro ⟨hrule, rfl⟩
    have hl : n.layout.createLabels range none = .error (.missingRule r.typ) := by
      simp [Layout.createLabels, n, hr, Range.ruleAtTop?, hrule]
    rw [createLabels, hl]
    rfl
  have hok : ¬ (r.rule = none ∧ incoming = none) → ∃ rule, n.layout.createLabels range incoming =
      .ok (n.layout.bindFrom (n.layout.slots.size + 1) r.separator rule none r.first) := by
    intro hsome
    cases incoming with
    | some rule => exact ⟨r.ruleBelow rule, by simp [Layout.createLabels, n, hr]⟩
    | none =>
      obtain ⟨own, hown⟩ := Option.ne_none_iff_exists'.1 fun hnone => hsome ⟨hnone, rfl⟩
      exact ⟨own.withLevel r.weight, by simp [Layout.createLabels, n, hr, Range.ruleAtTop?, hown]⟩
  refine ⟨⟨fun herr => ?_, hmissing⟩, fun hnone => perform_of_error (hmissing hnone),
    fun hsome => ?_⟩
  · by_cases hnone : r.rule = none ∧ incoming = none
    · exact hnone
    · obtain ⟨rule, hl⟩ := hok hnone
      rw [createLabels, hl] at herr
      cases herr
  · obtain ⟨rule, hl⟩ := hok hsome
    obtain ⟨visited, hbinds⟩ : ∃ visited, Binds r.separator rule none r.first n.layout visited
        (n.layout.bindFrom (n.layout.slots.size + 1) r.separator rule none r.first) :=
      hs.exists_binds _ fun f hf => ⟨(hs.first_gt range r f hr hf).1, by omega⟩
    have hcovers : ∀ q, q ∈ visited ↔ n.layout.Covers range q := by
      intro q
      rw [hbinds.mem_iff]
      constructor
      · exact fun ⟨f, hf, hq⟩ => ⟨r, f, hr, hf, hq⟩
      · rintro ⟨u, f, hu, hf, hq⟩
        cases hr.symm.trans hu
        exact ⟨f, hf, hq⟩
    have hrelabeled := hbinds.relabeled
    refine ⟨{ n with layout := _ }, rule, visited, by rw [createLabels, hl]; rfl, hbinds,
      hbinds.nodup hs, hcovers, fun q s hq hmem => ?_, fun q hmem => ?_, hrelabeled.size,
      hrelabeled.ranges, hrelabeled.active, rfl⟩
    · obtain ⟨label, ht⟩ := hrelabeled.slot q s hq
      have hsome := (hs.isSome_label_createLabels hl hq ht).2 (.inr ((hcovers q).1 hmem))
      obtain ⟨label, rfl⟩ := Option.isSome_iff_exists.1 hsome
      exact ⟨label, ht⟩
    · exact hbinds.slot?_of_not_mem hmem

/-- Labels for two slots of one range and one below the first. -/
theorem createLabels_run_three :
    let ops : List Operation := [.newRange "section" "" none, .next ⟨0⟩, .sub ⟨0⟩, .next ⟨1⟩, .next ⟨0⟩]
    (run {} ops).layout.range? ⟨0⟩ ≠ none ∧ ∃ n', (run {} ops).createLabels ⟨0⟩
      (some (.numbered "section" none)) = .ok n' ∧ n'.layout.ranges = (run {} ops).layout.ranges := by
  intro ops
  have h := createLabels_run ops ⟨0⟩ (some (.numbered "section" none)) rfl
  obtain ⟨n', -, -, hok, -, -, -, -, -, -, hranges, -⟩ := h.2.2 (by simp)
  exact ⟨by decide, n', hok, hranges⟩

end Numbering

end Folio
