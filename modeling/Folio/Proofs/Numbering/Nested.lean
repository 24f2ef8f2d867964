import Folio.Proofs.Numbering.Openings
import Folio.Proofs.Numbering.Rules
import Folio.Proofs.Numbering.Sequences
import Folio.Proofs.Numbering.Tidy

/-!
# Labels of nested slots

Slots are claimed in a range and in ranges opened below its slots, and ranges get rules of their
own. `Numbering.Nesting` is what all such runs keep up. It says in particular that every slot hangs
on the range at the top, so that a walk from there binds a label to it, and that the rule of a slot
goes on from the rule of the slot above (`Nesting.exists_counts_below`).

A label then extends the label of the slot above (`Numbering.nested_label_run`). There are two
exceptions, which come from what a rule and a separator are for. An own rule is glued behind the
part of a rule that counts, so below a composed rule it drops the base. And the separator of a range
stands behind the name of the lead as well, so a range with another separator has another front
(`Numbering.not_forall_nested_label`).
-/

namespace Folio

/-- Claims a slot, opens a range below one, or sets an own rule, which has no labels yet unless the
range is the one at the top. -/
def Operation.Nests : Operation → Prop
  | .next _ | .sub _ => True
  | .setRule range _ rule => range = ⟨0⟩ ∨ ∀ own, rule = some own → own.Fresh
  | _ => False

/-- The range at the top, or one below a slot that has no rule or a fresh one. -/
structure Range.Nests (r : Range) (i : RangeId) : Prop where
  growing : r.stage = .growing
  top : r.parent = none ↔ i = ⟨0⟩
  fresh : i ≠ ⟨0⟩ → ∀ own, r.rule = some own → own.Fresh
  weight : r.weight = none

namespace Layout

/-- One range lies at the top, and all others below slots. No display level is set. -/
structure Single (l : Layout) : Prop where
  range : ∀ i r, l.range? i = some r → r.Nests i
  pinned : ∀ q s, l.slot? q = some s → s.pinned = none

namespace Single

variable {l l' : Layout} {range : RangeId} {r : Range} {opened : Bool} {lead : Option SlotId}
  {n n' : Numbering}

theorem top (typ abbreviation : String) :
    (({} : Layout).addRange { typ, abbreviation }).2.Single where
  range i r hr := by
    rw [range?_addRange] at hr
    split at hr
    next hi =>
      cases hr
      exact ⟨rfl, iff_of_true rfl hi, fun hne => (hne hi).elim, rfl⟩
    · simp [range?] at hr
  pinned q s hs := by simp [slot?, addRange] at hs

theorem claimed (h : l.Single) (hc : l.Claimed l' range r opened lead none) : l'.Single where
  range i u hu := by
    by_cases hi : i = range
    · subst hi
      cases hc.range_self.symm.trans hu
      have hr := h.range i r hc.before
      exact ⟨hr.growing, hr.top, hr.fresh, hr.weight⟩
    · exact h.range i u ((hc.range_other hi).symm.trans hu)
  pinned q t ht := by
    rcases hc.slot_cases ht with ⟨rfl, rfl⟩ | ⟨s, hs, rfl⟩
    · rfl
    · rw [Slot.linked_pinned, h.pinned q s hs]

theorem sub (h : n.layout.Single) {below : RangeId} (hn : n.sub range = .ok (below, n')) :
    n'.layout.Single := by
  obtain ⟨r, slot, s, hr, -, -, -, -, -, ho⟩ := Numbering.sub_cases hn
  refine ⟨fun i u hu => ?_, fun q t ht => h.pinned q t ((ho.slot q).symm.trans ht)⟩
  rw [ho.range] at hu
  split at hu
  next hi =>
    -- The new range is not the first one.
    have hpos : i ≠ ⟨0⟩ := by
      rintro rfl
      have hsize : n.layout.ranges.size = 0 := (congrArg RangeId.index hi).symm
      have hlt := range?_lt hr
      omega
    cases hu
    exact ⟨rfl, by simp [hpos], by simp, rfl⟩
  · split at hu
    next hi =>
      subst hi
      rw [hr] at hu
      cases hu
      have hr := h.range i r hr
      exact ⟨hr.growing, hr.top, hr.fresh, hr.weight⟩
    · exact h.range i u hu

theorem setRule (h : n.layout.Single) {separator : String} {rule : Option LabelRule}
    (hrule : range = ⟨0⟩ ∨ ∀ own, rule = some own → own.Fresh) :
    (n.setRule range separator rule).layout.Single := by
  refine ⟨fun i u hu => ?_, h.pinned⟩
  rw [Numbering.range?_setRule] at hu
  split at hu
  next hi =>
    obtain ⟨v, hv, rfl⟩ := Option.map_eq_some_iff.1 hu
    have hv := h.range i v hv
    refine ⟨hv.growing, hv.top, fun hne own hown => ?_, hv.weight⟩
    rcases hrule with h0 | hfresh
    · exact (hne (hi.trans h0)).elim
    · exact hfresh own hown
  · exact h.range i u hu

end Single

end Layout

namespace Numbering

open Layout

/-- What runs keep up that claim slots, open ranges and set own rules. -/
structure Nesting (unled : String) (n : Numbering) : Prop where
  tidy : n.layout.Tidy
  steady : n.layout.Steady
  guarded : n.layout.Guarded fun _ => False
  led : n.Led unled
  single : n.layout.Single

namespace Nesting

variable {n n' : Numbering} {unled : String} {op : Operation} {range : RangeId}

theorem newRange (typ abbreviation : String) (lead : Option Lead) (ht : typ ≠ unled) :
    (({} : Numbering).perform (.newRange typ abbreviation lead)).Nesting unled where
  tidy := Tidy.empty.newRange typ abbreviation lead
  steady := by
    have hop : (Operation.newRange typ abbreviation lead).InGrowing {} := trivial
    exact (steady_perform .empty hop).1
  guarded := guarded_perform (.empty _) .empty fun _ ⟨_, _, _, _, hop, _⟩ => nomatch hop
  led := Led.empty.newRange typ abbreviation lead fun _ => ht
  single := by
    have hlayout := layout_newRange {} typ abbreviation lead
    exact hlayout ▸ .top typ abbreviation

theorem perform (h : n.Nesting unled) (hop : op.Nests) : (n.perform op).Nesting unled := by
  have hassign : ∀ q, ¬ n.Assigns op q := by
    rintro q ⟨range, level, handle, n', rfl, -⟩
    exact hop
  have hgrowing : op.InGrowing n := by
    cases op <;> trivial
  have hsteady := (steady_perform h.steady hgrowing).1
  have hguarded := guarded_perform h.guarded h.tidy.toSound fun q hq => (hassign q hq).elim
  suffices hrest : (n.perform op).layout.Tidy ∧ (n.perform op).Led unled ∧
      (n.perform op).layout.Single from
    ⟨hrest.1, hsteady, hguarded, hrest.2.1, hrest.2.2⟩
  refine perform_induction (I := fun n => n.layout.Tidy ∧ n.Led unled ∧ n.layout.Single)
    ⟨h.tidy, h.led, h.single⟩ ?_ ?_ ?_ ?_ ?_ ?_ ?_ ?_
  · rintro _ _ _ rfl
    exact hop.elim
  · intro range slot n' _ hn
    refine ⟨(h.tidy.next hn).1, h.led.next h.tidy.toSound hn, ?_⟩
    obtain ⟨r, hr, -, ⟨ha, -⟩ | ⟨-, heq⟩⟩ := next_cases hn
    · simp [(h.single.range range r hr).growing] at ha
    · cases heq
      exact h.single.claimed (h.tidy.toSound.claim hr false none)
  · intro range below n' _ hn
    refine ⟨h.tidy.sub hn fun r q hr hq => ⟨fun i u hu hg hp => ?_, fun i u hu hua => ?_⟩,
      h.led.sub h.steady.toOrdered hn, h.single.sub hn⟩
    · -- The mark says that no range was opened below the slot.
      obtain ⟨r', -, -, hr', -, -, hmark, -⟩ := sub_cases hn
      cases hr.symm.trans hr'
      have hopened := (h.guarded.mark range r q hr hq not_false).2 ⟨i, u, hu, hg, hp⟩
      simp [hmark] at hopened
    · simp [(h.single.range i u hu).growing] at hua
  · rintro _ _ _ _ rfl
    exact hop.elim
  · rintro range separator rule rfl
    exact ⟨h.tidy.setRule .., h.led.setRule .., h.single.setRule hop⟩
  · rintro _ _ rfl
    exact hop.elim
  · rintro _ rfl
    exact hop.elim
  · rintro _ _ _ rfl
    exact hop.elim

theorem run {ops : List Operation} (h : n.Nesting unled) (hops : ∀ op ∈ ops, op.Nests) :
    (n.run ops).Nesting unled := by
  induction ops generalizing n with
  | nil => exact h
  | cons op ops ih =>
    obtain ⟨hop, hops⟩ := List.forall_mem_cons.1 hops
    exact ih (h.perform hop) hops

/-! ## Rules along a range -/

variable {f p q : SlotId} {s t : Slot} {r u : Range} {separator sep : String} {rule ρ : LabelRule}
  {previous : Option SlotId} {k m : Nat}

/-- A slot that is reached along a range has the separator of the one that a walk comes to. -/
theorem counts_follows {l : Layout} (hp : l.Counts f separator rule previous p sep ρ)
    (hf : l.Follows p q) (hl : l.Sound) :
    ∃ ρ', l.Counts f separator rule previous q sep ρ' := by
  induction hf with
  | refl => exact ⟨ρ, hp⟩
  | @tail b c _ hn ih =>
    obtain ⟨ρ', hb⟩ := ih
    obtain ⟨v, hv, hnext⟩ := next?_eq_some.1 hn
    obtain ⟨w, hw⟩ := slot?_isSome (hl.next_gt b v c hv hnext).2
    exact ⟨_, hb.next v w hv hnext hw⟩

/-- Below a slot, all slots of a range have the same lead, so a walk counts them without a
restart. -/
theorem counts_chain (h : n.Nesting unled)
    (hp : n.layout.Counts f separator rule previous q sep ρ) (hs : n.layout.slot? q = some s)
    (hparent : s.parent ≠ none) {c : SlotId} (hk : (n.layout.chain m (some q))[k]? = some c) :
    n.layout.Counts f separator rule previous c sep (LabelRule.next^[k] ρ) := by
  induction k generalizing m q s ρ with
  | zero =>
    cases m with
    | zero => simp [chain] at hk
    | succ m =>
      obtain rfl : q = c := by simpa [chain] using hk
      exact hp
  | succ k ih =>
    cases m with
    | zero => simp [chain] at hk
    | succ m =>
      change (n.layout.chain m (n.layout.next? q))[k]? = some c at hk
      cases hn : n.layout.next? q with
      | none => simp [hn] at hk
      | some b =>
        rw [hn] at hk
        obtain ⟨s', hs', hnext⟩ := next?_eq_some.1 hn
        cases hs.symm.trans hs'
        obtain ⟨t, -, -, ht, hp', -, -⟩ := h.steady.next_id q s b hs hnext
        obtain ⟨x, hx⟩ := Option.ne_none_iff_exists'.1 hparent
        obtain ⟨v, hv, hlead⟩ := h.led.slot q s x hs hx
        obtain ⟨v', hv', hlead'⟩ := h.led.slot b t x ht (hp'.trans hx)
        cases hv.symm.trans hv'
        have hb := hp.next s t hs hnext ht
        rw [advance, if_pos (hlead'.trans hlead.symm)] at hb
        rw [Function.iterate_succ_apply]
        exact ih hb ht (hp' ▸ hparent) hk

/-- The range below a slot hangs on it. -/
theorem nested_eq (h : n.Nesting unled) (ht : n.layout.slot? q = some t)
    (hp : t.parent = some p) : ∃ s r f, n.layout.slot? p = some s ∧
      s.nested = some t.range ∧ n.layout.range? t.range = some r ∧ r.parent = some p ∧
      r.first = some f ∧ n.layout.Follows f q := by
  obtain ⟨r, f, hr, hg, hparent, hf, hfollows⟩ := h.steady.home q t ht
  obtain ⟨s, hs, hnested⟩ := h.tidy.below t.range r p hr hg (hparent.trans hp)
  have hcur : r.current ≠ none := by
    intro hcur
    simp [(h.tidy.first_iff t.range r hr hg).2 hcur] at hf
  rw [if_neg hcur] at hnested
  exact ⟨s, r, f, hs, hnested, hr, hparent.trans hp, hf, hfollows⟩

/-- A walk from the top comes to every slot, with the separator of the range of the slot. -/
theorem exists_counts (h : n.Nesting unled) (rule : LabelRule) (hr : n.layout.range? ⟨0⟩ = some r)
    (hf : r.first = some f) (hs : n.layout.slot? q = some s)
    (hu : n.layout.range? s.range = some u) :
    ∃ ρ, n.layout.Counts f r.separator rule none q u.separator ρ := by
  have hsound := h.tidy.toSound
  cases hp : s.parent with
  | none =>
    obtain ⟨v, g, hv, -, hparent, hg, hfollows⟩ := h.steady.home q s hs
    have hzero := (h.single.range s.range v hv).top.1 (hparent.trans hp)
    cases hu.symm.trans hv
    rw [hzero] at hv
    cases hr.symm.trans hv
    cases hf.symm.trans hg
    obtain ⟨w, hw⟩ := slot?_isSome (hsound.first_gt ⟨0⟩ r f hr hf).1
    exact counts_follows (.start w hw) hfollows hsound
  | some p =>
    obtain ⟨v, r', g, hv, hnested, hr', -, hg, hfollows⟩ := h.nested_eq hs hp
    cases hu.symm.trans hr'
    obtain ⟨i, r', hr', -, htop, r'', f', hr'', hf', hreach⟩ := h.tidy.covered hv
    obtain rfl := (h.single.range i r' hr').top.1 htop
    cases hr.symm.trans hr''
    cases hf.symm.trans hf'
    obtain ⟨sep, ρ, hcounts⟩ := hsound.exists_counts hreach (hsound.first_gt ⟨0⟩ r f hr hf).1
      r.separator rule none
    obtain ⟨w, hw⟩ := slot?_isSome (hsound.first_gt s.range u g hu hg).1
    exact counts_follows (.nested v w s.range u hcounts hv hnested hu hg hw) hfollows hsound

/-- The rule of a range below a slot counts below the rule of the slot, or its own rule does below
the part of that rule that counts. -/
theorem ruleBelow_sub (h : r.Nests range) (ρ : LabelRule) : r.ruleBelow ρ.sub =
    match r.rule with
    | none => ρ.sub
    | some own => .compose ρ.last r.separator own := by
  unfold Range.ruleBelow
  cases r.rule with
  | none => rw [h.weight, withLevel_none]
  | some own => simp only [h.weight, withLevel_none, ρ.parent?_sub]

theorem reset_ruleBelow (h : r.Nests range) (hrange : range ≠ ⟨0⟩) (ρ : LabelRule) :
    (r.ruleBelow ρ.sub).reset = r.ruleBelow ρ.sub := by
  rw [ruleBelow_sub h]
  cases hrule : r.rule with
  | none => exact ρ.reset_sub
  | some own => exact LabelRule.reset_compose (h.fresh hrange own hrule) _ _

/-- A walk that comes to a slot comes to the slots below it with the rule of their range, as often
stepped on as there are slots up to them. -/
theorem exists_counts_below (h : n.Nesting unled)
    (hp : n.layout.Counts f separator rule previous p sep ρ) (ht : n.layout.slot? q = some t)
    (hparent : t.parent = some p) : ∃ r k, n.layout.range? t.range = some r ∧
      (n.layout.slotsOf t.range)[k]? = some q ∧
      n.layout.Counts f separator rule previous q r.separator
        (LabelRule.next^[k + 1] (r.ruleBelow ρ.sub)) := by
  have hsound := h.tidy.toSound
  obtain ⟨s, r, g, hs, hnested, hr, hrp, hg, hfollows⟩ := h.nested_eq ht hparent
  obtain ⟨k, hk⟩ := List.mem_iff_getElem?.1
    (mem_slotsOf hsound hr hg hfollows (slot?_lt ht))
  refine ⟨r, k, hr, hk, ?_⟩
  have hnests := h.single.range t.range r hr
  obtain ⟨v, hv, -, hvp⟩ := (h.steady.sequence t.range r hr).first g hg
  have hrange : t.range ≠ ⟨0⟩ := by
    intro h0
    simp [hnests.top.2 h0] at hrp
  have hfirst := hp.nested s v t.range r hs hnested hr hg hv
  -- Before the first label, there is nothing to start again.
  rw [h.single.pinned p s hs, withLevel_none, advance, reset_ruleBelow hnests hrange, ite_self]
    at hfirst
  rw [slotsOf, hr, Option.bind_some, hg] at hk
  rw [Function.iterate_succ_apply]
  exact h.counts_chain hfirst hv (by simp [hvp, hrp]) hk

private theorem sub_inj {a b : LabelId} {k : Nat} : a.sub k = b.sub k ↔ a = b := by
  cases a
  cases b
  simp [LabelId.sub]

/-- What a label below another one goes on from. -/
theorem id_ruleBelow (h : r.Nests range) (hrange : range ≠ ⟨0⟩) (ρ : LabelRule) (k : Nat) :
    (LabelRule.next^[k] (r.ruleBelow ρ.sub)).id = ρ.id.sub k ↔
      r.rule = none ∨ ρ.kind ≠ "composed" := by
  rw [ruleBelow_sub h, ← LabelRule.last_eq_iff]
  cases hrule : r.rule with
  | none => simp [ρ.id_sub k]
  | some own =>
    rw [LabelRule.id_compose (h.fresh hrange own hrule), ← LabelRule.last_id_eq_iff, sub_inj]
    simp

theorem exists_name_ruleBelow (h : r.Nests range) {ρ : LabelRule}
    (hρ : r.rule = none ∨ ρ.kind ≠ "composed") (k : Nat) :
    ∃ rest, (LabelRule.next^[k] (r.ruleBelow ρ.sub)).name = ρ.name ++ rest := by
  rw [ruleBelow_sub h]
  cases hrule : r.rule with
  | none => exact ρ.exists_name_sub k
  | some own =>
    have hlast : ρ.last = ρ := LabelRule.last_eq_iff.2 (hρ.resolve_left (by simp [hrule]))
    rw [hlast]
    exact LabelRule.exists_name_compose ρ r.separator own k

end Nesting

/-- Labels with the same lead extend each other if their rules do, and if the name of the lead does
not stand in front of different separators. -/
theorem exists_nameWith {slotName : SlotId → Option String} {lead : Option SlotId}
    {separator separator' : String} {ρ ρ' : LabelRule} (h : ∃ rest, ρ'.name = ρ.name ++ rest)
    (hsep : separator' = separator ∨
      (Label.ofLead lead separator ρ).nameWith slotName = ρ.name) :
    ∃ rest, (Label.ofLead lead separator' ρ').nameWith slotName =
      (Label.ofLead lead separator ρ).nameWith slotName ++ rest := by
  obtain ⟨rest, hrest⟩ := h
  refine ⟨rest, ?_⟩
  cases lead with
  | none => exact hrest
  | some q =>
    simp only [Label.ofLead, Label.nameWith] at hsep ⊢
    split
    · exact hrest
    next hfront =>
      rw [if_neg hfront] at hsep
      rcases hsep with rfl | hsep
      · rw [hrest, String.append_assoc, String.append_assoc, String.append_assoc]
      · have hlen := congrArg String.length hsep
        rw [String.length_append, String.length_append] at hlen
        exact (hfront (String.length_eq_zero_iff.1 (by omega))).elim

/-- After any run that claims slots in one range and in ranges below its slots and sets fresh rules
there, the label of a slot has the id of the label above with the ordinal of the slot behind it,
unless the range has an own rule below a composed one. And it begins with the name of the label
above, unless the name of a lead stands in front of different separators. -/
theorem nested_label_run (typ abbreviation : String) (lead : Option Lead) (ops : List Operation)
    (hops : ∀ op ∈ ops, op.Nests) (incoming : Option LabelRule) {n' : Numbering}
    (hn : (run {} (.newRange typ abbreviation lead :: ops)).createLabels ⟨0⟩ incoming = .ok n')
    {p c : SlotId} {t : Slot} (hc : n'.layout.slot? c = some t) (hparent : t.parent = some p) :
    ∃ s u r a b x y k, n'.layout.slot? p = some s ∧ n'.layout.range? s.range = some u ∧
      n'.layout.range? t.range = some r ∧ s.label = some a ∧ t.label = some b ∧
      n'.layout.name p = some x ∧ n'.layout.name c = some y ∧
      (n'.layout.slotsOf t.range)[k]? = some c ∧
      (b.rule.id = a.rule.id.sub (k + 1) ↔ r.rule = none ∨ a.rule.kind ≠ "composed") ∧
      (r.rule = none ∨ a.rule.kind ≠ "composed" → r.separator = u.separator ∨ x = a.rule.name →
        ∃ rest, y = x ++ rest) := by
  obtain ⟨unled, hunled⟩ : ∃ unled, typ ≠ unled := by
    by_cases ht : typ = ""
    · exact ⟨"x", by simp [ht]⟩
    · exact ⟨"", ht⟩
  have h : (run {} (.newRange typ abbreviation lead :: ops)).Nesting unled :=
    (Nesting.newRange typ abbreviation lead hunled).run hops
  generalize run {} (.newRange typ abbreviation lead :: ops) = n at h hn
  obtain ⟨hl, -⟩ := createLabels_layout hn
  have hrel := Layout.createLabels_relabeled hl
  obtain ⟨t₀, ht⟩ := slot?_isSome (hrel.size ▸ slot?_lt hc)
  obtain ⟨label, hc'⟩ := hrel.slot c t₀ ht
  cases hc.symm.trans hc'
  have hsound := h.tidy.toSound
  -- The walk comes to the slot above, and from there to the slot.
  obtain ⟨s, r, g, hs, -, hr, hrp, -⟩ := h.nested_eq ht hparent
  obtain ⟨u, f₁, hu, -⟩ := h.steady.home p s hs
  obtain ⟨i, v, hv, -, htop, r₀, f, hr₀, hf, hreach⟩ := h.tidy.covered hs
  obtain rfl := (h.single.range i v hv).top.1 htop
  obtain ⟨r₀', rule, hr₀', -, heq⟩ := Layout.createLabels_cases hl
  cases hr₀.symm.trans hr₀'
  obtain ⟨ρ, hρ⟩ := h.exists_counts rule hr₀ hf hs hu
  obtain ⟨r', k, hr', hk, hρ'⟩ := h.exists_counts_below hρ ht hparent
  cases hr.symm.trans hr'
  have hbound : ∀ {q sep ρ w}, n.layout.Counts f r₀.separator rule none q sep ρ →
      n.layout.slot? q = some w → n'.layout.slot? q =
        some { w with label := some (.ofLead w.lead sep ρ) } := by
    intro q sep ρ w hcounts hw
    obtain ⟨w', hw', hlabel⟩ := hsound.label_bindFrom (n.layout.slots.size + 1) (by omega) hcounts
    cases hw.symm.trans hw'
    rw [heq, hf, hlabel, h.single.pinned q w hw, Layout.withLevel_none]
  have hp' := hbound hρ hs
  cases hc.symm.trans (hbound hρ' ht)
  obtain ⟨w, hw, hlead⟩ := h.led.slot c _ p ht hparent
  cases hs.symm.trans hw
  obtain ⟨m, hm⟩ : ∃ m, n'.layout.slots.size = m + 1 := ⟨n'.layout.slots.size - 1, by
    have hlt := slot?_lt hc
    omega⟩
  have hname : ∀ {q : SlotId} {w : Slot} {bound : Label},
      n'.layout.slot? q = some { w with label := some bound } →
        n'.layout.name q = some (bound.nameWith (n'.layout.nameAt m)) := by
    intro q w bound hq
    rw [name, hm, nameAt, hq]
    rfl
  have hnests := h.single.range _ r hr
  have hrange : t₀.range ≠ ⟨0⟩ := by
    intro h0
    simp [hnests.top.2 h0] at hrp
  have hrule : ∀ lead sep (ρ : LabelRule), (Label.ofLead lead sep ρ).rule = ρ := by
    intro lead sep ρ
    cases lead <;> rfl
  refine ⟨_, u, r, _, _, _, _, k, hp', (hrel.range? _).trans hu, (hrel.range? _).trans hr, rfl, rfl,
    hname hp', hname hc, ?_, ?_, fun hkind hsep => ?_⟩
  · obtain ⟨rest, hrest⟩ := (Reworked.relabeled hrel).extend.slotsOf_prefix t₀.range
    rw [← hrest, List.getElem?_append_left (List.getElem?_eq_some_iff.1 hk).1]
    exact hk
  · rw [hrule, hrule]
    exact Nesting.id_ruleBelow hnests hrange ρ (k + 1)
  · rw [hrule] at hkind hsep
    rw [hlead]
    exact exists_nameWith (Nesting.exists_name_ruleBelow hnests hkind (k + 1)) hsep

/-- Two slots in a range with an own rule below the first slot at the top. -/
def ownRules : List Operation :=
  [.next ⟨0⟩, .sub ⟨0⟩, .setRule ⟨1⟩ "-" (some (.numbered "section" none)), .next ⟨1⟩, .next ⟨1⟩]

/-- The label of the second one extends the label of the slot at the top. -/
theorem nested_label_run_own_rule :
    (∀ op ∈ ownRules, op.Nests) ∧ ∃ n' x y rest,
      (run {} (.newRange "section" "" none :: ownRules)).createLabels ⟨0⟩
        (some (.numbered "section" none)) = .ok n' ∧
      n'.layout.name ⟨0⟩ = some x ∧ n'.layout.name ⟨2⟩ = some y ∧ y = x ++ rest := by
  have hops : ∀ op ∈ ownRules, op.Nests := by
    have hfresh : (LabelRule.numbered "section" none).Fresh := ⟨.numbered, "section", none, rfl⟩
    simpa [ownRules, Operation.Nests] using hfresh
  obtain ⟨s, u, r, a, b, x, y, k, hs, -, -, ha, -, hx, hy, -, -, hname⟩ :=
    nested_label_run "section" "" none ownRules hops (some (.numbered "section" none)) rfl
      (c := ⟨2⟩) rfl rfl
  cases hs
  cases ha
  obtain ⟨rest, hrest⟩ := hname (.inr (by decide)) (.inr (by cases hx; rfl))
  exact ⟨hops, _, x, y, rest, rfl, hx, hy, hrest⟩

/-- The second slot in a range with an own rule, and below it a slot in another such range. -/
def ownRulesTwice : List Operation :=
  ownRules ++ [.sub ⟨1⟩, .setRule ⟨2⟩ "-" (some (.numbered "section" none)), .next ⟨2⟩]

/-- An own rule below a composed rule drops its base: the slot below the one with the name 1-2 gets
the name 2-1. -/
theorem not_forall_nested_label : ¬ ∀ ops : List Operation, (∀ op ∈ ops, op.Nests) →
    ∀ (incoming : Option LabelRule) (n' : Numbering),
      (run {} (.newRange "section" "" none :: ops)).createLabels ⟨0⟩ incoming = .ok n' →
      ∀ p c t s a b x y k, n'.layout.slot? c = some t → t.parent = some p →
        n'.layout.slot? p = some s → s.label = some a → t.label = some b →
        n'.layout.name p = some x → n'.layout.name c = some y →
        (n'.layout.slotsOf t.range)[k]? = some c →
        (x ≠ "" → y ≠ "" → ∃ rest, y = x ++ rest) ∧ b.rule.id = a.rule.id.sub (k + 1) := by
  intro h
  have hops : ∀ op ∈ ownRulesTwice, op.Nests := by
    have hfresh : (LabelRule.numbered "section" none).Fresh := ⟨.numbered, "section", none, rfl⟩
    simpa [ownRulesTwice, ownRules, Operation.Nests] using hfresh
  have hid := (h ownRulesTwice hops (some (.numbered "section" none)) _ rfl ⟨2⟩ ⟨3⟩ _ _ _ _ _ _ 0
    rfl rfl rfl rfl rfl rfl rfl rfl).2
  cases hid

end Numbering

end Folio
