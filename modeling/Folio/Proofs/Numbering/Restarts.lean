import Folio.Proofs.Numbering.Names
import Folio.Proofs.Numbering.Sequences
import Mathlib.Data.List.Basic
import Mathlib.Tactic.ByContra

/-!
# Counters that start again

Along the slots at the top of a label type with a master, the counter starts again whenever the lead
changes. As long as a lead stays, no number is shown twice (`Layout.Shown.run`). So if two slots show
the same numbers behind the same lead, the lead has changed between them and back
(`Layout.Counted.restarts`).

The name of a slot with a lead has the name of the lead in front, and a separator between the two.
Both parts can be read back if the separator occurs in neither (`separated_injective`).
-/

namespace Folio

namespace Layout

/-- Along a sequence from `a` to `b`, both included, stands a slot with another lead. -/
def Leaves (l : Layout) (lead : Option SlotId) (a b : SlotId) : Prop :=
  ∃ p u, l.Follows a p ∧ l.Follows p b ∧ l.slot? p = some u ∧ u.lead ≠ lead

theorem Leaves.tail {l : Layout} {lead : Option SlotId} {a p b : SlotId} (h : l.Leaves lead a p)
    (hb : l.next? p = some b) : l.Leaves lead a b := by
  obtain ⟨o, u, hao, hop, hu, hne⟩ := h
  exact ⟨o, u, hao, hop.tail hb, hu, hne⟩

/-- The slot `a` is the one at the top above the slot `q`, and both have the same lead. -/
structure Headed (l : Layout) (lead : Option SlotId) (q a : SlotId) : Prop where
  slot : ∃ t, l.slot? q = some t ∧ t.lead = lead
  above : ∃ u, l.slot? a = some u ∧ u.lead = lead
  topmost : l.Topmost q a

/-- Two slots have the same lead, and between the slots at the top above them stands one with
another lead. -/
def Restarts (l : Layout) (q q' : SlotId) : Prop :=
  ∃ lead a a', l.Headed lead q a ∧ l.Headed lead q' a' ∧ (l.Leaves lead a a' ∨ l.Leaves lead a' a)

/-- Leads and sequences do not depend on labels. -/
theorem Relabeled.restarts {l l' : Layout} (h : l.Relabeled l') {q q' : SlotId}
    (hr : l.Restarts q q') : l'.Restarts q q' := by
  have hlead : ∀ {p lead}, (∃ t, l.slot? p = some t ∧ t.lead = lead) →
      ∃ t, l'.slot? p = some t ∧ t.lead = lead := by
    rintro p lead ⟨t, ht, hlead⟩
    obtain ⟨label, ht'⟩ := h.slot p t ht
    exact ⟨_, ht', hlead⟩
  have hparent : ∀ p, l'.parent? p = l.parent? p := by
    intro p
    unfold parent?
    cases hp : l.slot? p with
    | some t =>
      obtain ⟨label, ht'⟩ := h.slot p t hp
      rw [ht']
      rfl
    | none =>
      cases hp' : l'.slot? p with
      | none => rfl
      | some t =>
        obtain ⟨label, ht⟩ := h.symm.slot p t hp'
        cases hp.symm.trans ht
  have hfollows : ∀ {a b}, l.Follows a b → l'.Follows a b := by
    intro a b hab
    refine Relation.ReflTransGen.mono (fun p q hq => ?_) _ _ hab
    obtain ⟨t, ht, hn⟩ := next?_eq_some.1 hq
    obtain ⟨label, ht'⟩ := h.slot p t ht
    exact next?_eq_some.2 ⟨_, ht', hn⟩
  have hleaves : ∀ {lead a b}, l.Leaves lead a b → l'.Leaves lead a b := by
    rintro lead a b ⟨p, u, hap, hpb, hu, hne⟩
    obtain ⟨label, hu'⟩ := h.slot p u hu
    exact ⟨p, _, hfollows hap, hfollows hpb, hu', hne⟩
  have hheaded : ∀ {lead p a}, l.Headed lead p a → l'.Headed lead p a := by
    rintro lead p a ⟨hp, ha, hrises, htop⟩
    refine ⟨hlead hp, hlead ha, ?_, (hparent a).trans htop⟩
    exact Relation.ReflTransGen.mono (fun p r hr => (hparent p).trans hr) _ _ hrises
  obtain ⟨lead, a, a', hq, hq', hl⟩ := hr
  exact ⟨lead, a, a', hheaded hq, hheaded hq', hl.imp hleaves hleaves⟩

namespace Shown

variable {l : Layout} {f a b q : SlotId} {m m' : Nat} {lead : Option SlotId}

theorem follows (h : l.Shown f q m) : l.Follows f q := by
  induction h with
  | start => exact .refl
  | next s t hp hs hq ht ih => exact ih.tail (next?_eq_some.2 ⟨s, hs, hq⟩)

theorem index_le (h : l.Shown f q m) (hl : l.Sound) : f.index ≤ q.index := by
  induction h with
  | start => exact Nat.le_refl _
  | next s t hp hs hq ht ih =>
    have hlt := (hl.next_gt _ s _ hs hq).1
    omega

/-- A slot shows one number. -/
theorem unique (h : l.Shown f q m) (h' : l.Shown f q m') (hl : l.Sound) : m = m' := by
  induction h generalizing m' with
  | start =>
    cases h' with
    | start => rfl
    | next s t hp hs hq ht =>
      have hle := hp.index_le hl
      have hlt := (hl.next_gt _ s _ hs hq).1
      omega
  | @next p q m s t hp hs hq ht ih =>
    cases h' with
    | start =>
      have hle := hp.index_le hl
      have hlt := (hl.next_gt _ s _ hs hq).1
      omega
    | next s' t' hp' hs' hq' ht' =>
      obtain rfl := hl.next_inj _ s _ s' _ hs hs' hq hq'
      cases hs.symm.trans hs'
      cases ht.symm.trans ht'
      rw [ih hp']

/-- As long as the lead stays, the numbers go up. -/
theorem run (ha : l.Shown f a m) (hl : l.Sound) (hab : l.Follows a b)
    (hstay : ¬l.Leaves lead a b) : ∃ k, l.Shown f b (m + k) ∧ (k = 0 → a = b) := by
  induction hab with
  | refl => exact ⟨0, ha, fun _ => rfl⟩
  | @tail p b hap hb ih =>
    obtain ⟨k, hp, -⟩ := ih fun h => hstay (h.tail hb)
    obtain ⟨u, hu, hn⟩ := next?_eq_some.1 hb
    obtain ⟨t, ht⟩ := slot?_isSome (hl.next_gt p u b hu hn).2
    have hlead : u.lead = lead := by
      by_contra hne
      exact hstay ⟨p, u, hap, .single hb, hu, hne⟩
    have hlead' : t.lead = lead := by
      by_contra hne
      exact hstay ⟨b, t, hap.tail hb, .refl, ht, hne⟩
    refine ⟨k + 1, ?_, by omega⟩
    have hnext := hp.next u t hu hn ht
    rwa [if_pos (hlead'.trans hlead.symm), Nat.add_assoc] at hnext

/-- From one slot to another one that shows the same number, no lead stays. -/
theorem leaves (ha : l.Shown f a m) (hb : l.Shown f b m) (hl : l.Sound) (hab : l.Follows a b)
    (hne : a ≠ b) (lead : Option SlotId) : l.Leaves lead a b := by
  by_contra hstay
  obtain ⟨k, hk, hzero⟩ := ha.run hl hab hstay
  have hm := hb.unique hk hl
  exact hne (hzero (by omega))

end Shown

/-- If two slots of a tree show the same numbers behind the same lead, the lead changes from the slot
at the top above one of them to that above the other, and back. -/
theorem Counted.restarts {l : Layout} (h : l.Ordered) {f q q' a a' : SlotId} {s t t' u u' : Slot}
    {typ : String} {m m' : Nat} {c c' : Counter} (hs : l.slot? f = some s)
    (hid : s.id = ⟨typ, [1]⟩) (hc : l.Counted f typ q a m c t u)
    (hc' : l.Counted f typ q' a' m' c' t' u') (hq : l.Reaches f q) (hq' : l.Reaches f q')
    (hne : q ≠ q') (hnumbers : c.numbers = c'.numbers) (hlead : t.lead = t'.lead) :
    l.Restarts q q' := by
  rw [hc.stands.numbers, hc'.stands.numbers, List.cons.injEq] at hnumbers
  obtain ⟨rfl, htail⟩ := hnumbers
  have htop : a ≠ a' := by
    rintro rfl
    cases hc.above.symm.trans hc'.above
    have htake : t.id.path.take 1 = t'.id.path.take 1 := hc.path.symm.trans hc'.path
    have hpath : t.id.path = t'.id.path := by
      rw [← List.take_append_drop 1 t.id.path, ← List.take_append_drop 1 t'.id.path, htake,
        List.drop_one, List.drop_one, htail]
    exact hne (h.eq_of_path_eq hs (by rw [hid]) hq hq' hc.slot hc'.slot hpath)
  refine ⟨t.lead, a, a', ⟨⟨t, hc.slot, rfl⟩, ⟨u, hc.above, hc.lead⟩, hc.topmost⟩,
    ⟨⟨t', hc'.slot, hlead.symm⟩, ⟨u', hc'.above, hc'.lead.trans hlead.symm⟩, hc'.topmost⟩, ?_⟩
  rcases follows_total hc.shown.follows hc'.shown.follows with hab | hba
  · exact .inl (hc.shown.leaves hc'.shown h.toSound hab htop t.lead)
  · exact .inr (hc'.shown.leaves hc.shown h.toSound hba htop.symm t.lead)

/-- A walk carries the separator of the range at the top, or that of the range that a slot lies
in. -/
theorem Counts.separator_cases {l : Layout} (h : l.Ordered) {f q : SlotId} {s : Slot}
    {separator sep : String} {rule ρ : LabelRule} {previous : Option SlotId}
    (hc : l.Counts f separator rule previous q sep ρ) (hs : l.slot? f = some s)
    (hp : s.parent = none) : ∃ t, l.slot? q = some t ∧ (t.parent = none ∧ sep = separator ∨
      ∃ i r p, l.range? i = some r ∧ r.parent = some p ∧ t.parent = some p ∧ sep = r.separator) := by
  induction hc with
  | start s' hs' =>
    cases hs.symm.trans hs'
    exact ⟨s, hs, .inl ⟨hp, rfl⟩⟩
  | next s' t' _ hs' hq ht' ih =>
    obtain ⟨t, ht, hcases⟩ := ih
    cases hs'.symm.trans ht
    obtain ⟨u, -, -, hu, hparent, -⟩ := h.next_id _ s' _ hs' hq
    cases ht'.symm.trans hu
    exact ⟨t', ht', hparent ▸ hcases⟩
  | nested s' t' i r _ hs' hi hr hq ht' ih =>
    obtain ⟨r', hr', hparent, -⟩ := h.nested_parent _ s' i hs' hi
    cases hr.symm.trans hr'
    obtain ⟨t, ht, -, hp'⟩ := (h.sequence i r hr).first _ hq
    cases ht'.symm.trans ht
    exact ⟨t', ht', .inr ⟨i, r, _, hr, hparent, hp'.trans hparent, rfl⟩⟩

end Layout

/-! ## Names with a front -/

section Separated

variable {σ : Char} {xs xs' ys ys' zs : List Nat}

/-- A front and numbers with a separator between them. -/
def separated (front : String) (σ : Char) (numbers : List Nat) : String :=
  front ++ String.singleton σ ++ dotted numbers

theorem notMem_dotted (hσ : σ ≠ '.' ∧ ¬σ.isDigit) (xs : List Nat) : σ ∉ (dotted xs).toList :=
  fun h => (mem_dotted h).elim hσ.1 hσ.2

theorem toList_separated (front : String) (σ : Char) (numbers : List Nat) :
    (separated front σ numbers).toList = front.toList ++ σ :: (dotted numbers).toList := by
  simp [separated]

/-- The front and the numbers can be read back. -/
theorem separated_injective (hσ : σ ≠ '.' ∧ ¬σ.isDigit) (hx : xs ≠ []) (hx' : xs' ≠ [])
    (hy : ys ≠ []) (hy' : ys' ≠ [])
    (h : separated (dotted xs) σ ys = separated (dotted xs') σ ys') : xs = xs' ∧ ys = ys' := by
  have hlist := congrArg String.toList h
  rw [toList_separated, toList_separated,
    List.append_cons_inj_of_notMem (notMem_dotted hσ xs) (notMem_dotted hσ ys)] at hlist
  obtain ⟨hfront, -, hback⟩ := hlist
  exact ⟨dotted_injective hx hx' (String.toList_injective hfront),
    dotted_injective hy hy' (String.toList_injective hback)⟩

theorem separated_ne_dotted (hσ : σ ≠ '.' ∧ ¬σ.isDigit) (front : String) :
    separated front σ ys ≠ dotted zs := by
  intro h
  have hmem : σ ∈ (separated front σ ys).toList := by
    rw [toList_separated]
    exact List.mem_append_right _ (List.mem_cons_self ..)
  rw [h] at hmem
  exact notMem_dotted hσ zs hmem

end Separated

end Folio
