import Folio.Proofs.Numbering.Labels

/-!
# Ids along the links

The id of a slot says where the slot stands: a slot behind another one has the next ordinal, and
the first slot below another one has the ordinal 1 behind the ordinals of that one. `Layout.Ordered`
states this for all slots, together with what a range has to know of its slots to keep it up. It
holds whatever operations are applied, also where a slot is lost.

So an id leads to its slot: no two slots that hang on one range have the same id
(`Ordered.eq_of_path_eq`).
-/

namespace Folio

/-- Two ranges hand out the same slots. -/
structure Range.SameSequence (r r' : Range) : Prop where
  typ : r'.typ = r.typ
  ordinals : r'.ordinals = r.ordinals
  parent : r'.parent = r.parent
  first : r'.first = r.first
  current : r'.current = r.current
  lead : r'.lead = r.lead

/-- Two slots stand at the same place. -/
structure Slot.SamePlace (s s' : Slot) : Prop where
  id : s'.id = s.id
  parent : s'.parent = s.parent
  lead : s'.lead = s.lead

namespace Layout

/-- What a range knows of its slots agrees with them. -/
structure Sequence (l : Layout) (r : Range) : Prop where
  latest : ∀ q, r.current = some q → ∃ s, l.slot? q = some s ∧ s.id = r.ordinals.id r.typ ∧
    s.parent = r.parent ∧ s.lead = r.lead
  outer : ∀ p, r.parent = some p → ∃ s, l.slot? p = some s ∧ r.ordinals.outer = s.id.path ∧
    s.id.typ = r.typ
  top : r.parent = none → r.ordinals.outer = []
  blank : r.current = none → r.ordinals.count = 0
  first : ∀ q, r.first = some q → ∃ s, l.slot? q = some s ∧
    s.id = ⟨r.typ, r.ordinals.outer ++ [1]⟩ ∧ s.parent = r.parent

namespace Sequence

variable {l l' : Layout} {r r' : Range}

theorem mono (h : l.Sequence r)
    (hs : ∀ q s, l.slot? q = some s → ∃ s', l'.slot? q = some s' ∧ s.SamePlace s') :
    l'.Sequence r where
  latest q hq := by
    obtain ⟨s, hs', hid, hparent, hlead⟩ := h.latest q hq
    obtain ⟨t, ht, hsame⟩ := hs q s hs'
    exact ⟨t, ht, hsame.id.trans hid, hsame.parent.trans hparent, hsame.lead.trans hlead⟩
  outer p hp := by
    obtain ⟨s, hs', houter, htyp⟩ := h.outer p hp
    obtain ⟨t, ht, hsame⟩ := hs p s hs'
    exact ⟨t, ht, by rw [houter, hsame.id], by rw [hsame.id, htyp]⟩
  top := h.top
  blank := h.blank
  first q hq := by
    obtain ⟨s, hs', hid, hparent⟩ := h.first q hq
    obtain ⟨t, ht, hsame⟩ := hs q s hs'
    exact ⟨t, ht, hsame.id.trans hid, hsame.parent.trans hparent⟩

theorem congr (h : l.Sequence r) (hr : r.SameSequence r') : l.Sequence r' where
  latest := by
    rw [hr.current, hr.ordinals, hr.typ, hr.parent, hr.lead]
    exact h.latest
  outer := by
    rw [hr.parent, hr.ordinals, hr.typ]
    exact h.outer
  top := by
    rw [hr.parent, hr.ordinals]
    exact h.top
  blank := by
    rw [hr.current, hr.ordinals]
    exact h.blank
  first := by
    rw [hr.first, hr.ordinals, hr.typ, hr.parent]
    exact h.first

end Sequence

/-- Ids follow the links. -/
structure Ordered (l : Layout) : Prop extends l.Sound where
  sequence : ∀ i r, l.range? i = some r → l.Sequence r
  next_id : ∀ p s q, l.slot? p = some s → s.next = some q → ∃ t outer k, l.slot? q = some t ∧
    t.parent = s.parent ∧ s.id = ⟨s.id.typ, outer ++ [k]⟩ ∧ t.id = ⟨s.id.typ, outer ++ [k + 1]⟩

namespace Ordered

variable {l l' : Layout} {range : RangeId} {r new : Range} {opened : Bool}
  {lead : Option SlotId} {pinned : Option Nat}

theorem empty : ({} : Layout).Ordered where
  toSound := .empty
  sequence i r hr := by simp [range?] at hr
  next_id p s q hs := by simp [slot?] at hs

theorem claimed (h : l.Ordered) (hc : l.Claimed l' range r opened lead pinned) : l'.Ordered where
  toSound := h.toSound.claimed hc
  sequence i u hu := by
    have hslot : ∀ q s, l.slot? q = some s → ∃ s', l'.slot? q = some s' ∧ s.SamePlace s' :=
      fun q s hs => ⟨_, hc.slot_old hs, by simp, by simp, by simp⟩
    by_cases hi : i = range
    · subst hi
      cases hc.range_self.symm.trans hu
      have hr := h.sequence i r hc.before
      have hr' := hr.mono hslot
      refine ⟨fun q hq => ?_, hr'.outer, hr.top, by simp [Range.grown], fun q hq => ?_⟩
      · cases hq
        exact ⟨_, hc.slot_fresh, rfl, rfl, rfl⟩
      · simp only [Range.grown] at hq
        split at hq
        next hn =>
          -- The first slot of a range without a current one gets the ordinal 1.
          cases hq
          have hcount := hr.blank (by simpa using hn)
          exact ⟨_, hc.slot_fresh, by simp [Range.newSlot, Range.grown, Ordinals.next, Ordinals.id, hcount],
            rfl⟩
        · exact hr'.first q hq
    · exact (h.sequence i u ((hc.range_other hi).symm.trans hu)).mono hslot
  next_id p t q ht hq := by
    rcases hc.slot_cases ht with ⟨rfl, rfl⟩ | ⟨s, hs, rfl⟩
    · simp [Range.newSlot] at hq
    · rw [Slot.linked_next] at hq
      simp only [Slot.linked_id, Slot.linked_parent]
      split at hq
      next hcur =>
        cases hq
        obtain ⟨s', hs', hid, hparent, -⟩ := (h.sequence range r hc.before).latest p hcur
        cases hs.symm.trans hs'
        refine ⟨_, r.ordinals.outer, r.ordinals.count, hc.slot_fresh, hparent.symm, ?_, ?_⟩
        · rw [hid]
          rfl
        · rw [hid]
          rfl
      · obtain ⟨t, outer, k, ht, hparent, hid, hid'⟩ := h.next_id p s q hs hq
        exact ⟨_, outer, k, hc.slot_old ht, by simpa using hparent, hid, by simpa using hid'⟩

/-- Ranges change in what does not concern their slots, and a range that fits is added. -/
theorem ranges (h : l.Ordered) (hl : l'.Sound) (hslot : ∀ q, l'.slot? q = l.slot? q)
    (hrange : ∀ i r', l'.range? i = some r' →
      (∃ r, l.range? i = some r ∧ r.SameSequence r') ∨ l.Sequence r') : l'.Ordered where
  toSound := hl
  sequence i r' hr' := by
    have hr : l.Sequence r' := by
      rcases hrange i r' hr' with ⟨r, hr, hsame⟩ | hr
      · exact (h.sequence i r hr).congr hsame
      · exact hr
    exact hr.mono fun q s hs => ⟨s, (hslot q).trans hs, rfl, rfl, rfl⟩
  next_id p s q hs hq := by
    obtain ⟨t, outer, k, ht, hrest⟩ := h.next_id p s q (hslot p ▸ hs) hq
    exact ⟨t, outer, k, (hslot q).trans ht, hrest⟩

theorem modify (h : l.Ordered) (f : Range → Range) (hf : ∀ r : Range, r.SameSequence (f r)) :
    ({ l with ranges := l.ranges.modify range.index f } : Layout).Ordered := by
  refine h.ranges (h.toSound.modify f fun r => ⟨(hf r).parent, (hf r).first, (hf r).current⟩)
    (fun _ => rfl) fun i r' hr' => .inl ?_
  rw [range?_modify] at hr'
  split at hr'
  · obtain ⟨r, hr, rfl⟩ := Option.map_eq_some_iff.1 hr'
    exact ⟨r, hr, hf r⟩
  · exact ⟨r', hr', rfl, rfl, rfl, rfl, rfl, rfl⟩

theorem addRange (h : l.Ordered) (hs : (l.addRange new).2.Sound) (hnew : l.Sequence new) :
    (l.addRange new).2.Ordered := by
  refine h.ranges hs (fun _ => rfl) fun i r' hr' => ?_
  rw [range?_addRange] at hr'
  split at hr'
  · cases hr'
    exact .inr hnew
  · exact .inl ⟨r', hr', rfl, rfl, rfl, rfl, rfl, rfl⟩

/-! ## The operations -/

variable {n n' : Numbering}

theorem newRange (h : n.layout.Ordered) (typ abbreviation : String) (lead : Option Lead) :
    (n.newRange typ abbreviation lead).2.layout.Ordered := by
  have hs := h.toSound.newRange typ abbreviation lead
  rw [Numbering.layout_newRange] at hs ⊢
  exact h.addRange hs ⟨by simp, by simp, by simp, by simp, by simp⟩

theorem setRule (h : n.layout.Ordered) (range : RangeId) (separator : String)
    (rule : Option LabelRule) : (n.setRule range separator rule).layout.Ordered :=
  h.modify _ fun _ => ⟨rfl, rfl, rfl, rfl, rfl, rfl⟩

theorem setWeight (h : n.layout.Ordered) (range : RangeId) (weight : Option Nat) :
    (n.setWeight range weight).layout.Ordered :=
  h.modify _ fun _ => ⟨rfl, rfl, rfl, rfl, rfl, rfl⟩

theorem setActive (h : n.layout.Ordered) (active : List (String × RangeId)) :
    (n.setActive active).layout.Ordered :=
  h.ranges (h.toSound.setActive active) (fun _ => rfl) fun _ r hr =>
    .inl ⟨r, hr, rfl, rfl, rfl, rfl, rfl, rfl⟩

theorem next (h : n.layout.Ordered) {slot : SlotId} (hn : n.next range = .ok (slot, n')) :
    n'.layout.Ordered := by
  obtain ⟨r, hr, -, ⟨-, -, rfl⟩ | ⟨-, heq⟩⟩ := Numbering.next_cases hn
  · refine h.ranges (h.toSound.next hn) (fun _ => rfl) fun i u' hu' => .inl ?_
    rw [range?_setRange] at hu'
    split at hu'
    next hi =>
      rw [hi, hr] at hu'
      cases hu'
      exact ⟨r, hi ▸ hr, rfl, rfl, rfl, rfl, rfl, rfl⟩
    · exact ⟨u', hu', rfl, rfl, rfl, rfl, rfl, rfl⟩
  · cases heq
    exact h.claimed (h.toSound.claim hr false none)

theorem sub (h : n.layout.Ordered) {below : RangeId} (hn : n.sub range = .ok (below, n')) :
    n'.layout.Ordered := by
  obtain ⟨r, slot, s, hr, hc, hs, -, -, -, ho⟩ := Numbering.sub_cases hn
  refine h.ranges (h.toSound.sub hn) ho.slot fun i u' hu' => ?_
  rw [ho.range] at hu'
  split at hu'
  · cases hu'
    obtain ⟨s', hs', hid, -, hlead⟩ := (h.sequence range r hr).latest slot hc
    cases hs.symm.trans hs'
    refine .inr ⟨by simp, fun p hp => ?_, by simp, fun _ => rfl, by simp⟩
    cases hp
    exact ⟨s, hs, rfl, by rw [hid]; rfl⟩
  · split at hu'
    next hi =>
      rw [hi, hr] at hu'
      cases hu'
      exact .inl ⟨r, hi ▸ hr, rfl, rfl, rfl, rfl, rfl, rfl⟩
    · exact .inl ⟨u', hu', rfl, rfl, rfl, rfl, rfl, rfl⟩

theorem assign (h : n.layout.Ordered) {level : Option Nat} {handle : RangeId}
    (hn : n.assign range level = .ok (handle, n')) : n'.layout.Ordered := by
  have hs := h.toSound.assign hn
  obtain ⟨r, hr, -, -, hl⟩ := Numbering.assign_cases hn
  rw [hl] at hs ⊢
  have hc := h.toSound.claim hr r.subOpened level
  have hl' := h.claimed hc
  refine hl'.addRange hs ?_
  have hseq := hl'.sequence range _ hc.range_self
  refine ⟨fun q hq => ?_, hseq.outer, hseq.top, by simp [Range.handle], by simp [Range.handle]⟩
  cases hq
  exact ⟨_, hc.slot_fresh, rfl, rfl, rfl⟩

/-! ## The way to a slot

A walk sets out from the slot `f`, the first one of a range at the top. -/

variable {f p q q' : SlotId} {s t s' : Slot}

/-- A link leads to the next ordinal, or to the first ordinal below. -/
theorem link_id (h : l.Ordered) (hl : l.Link p q) (hs : l.slot? p = some s) :
    ∃ t, l.slot? q = some t ∧ t.id.typ = s.id.typ ∧
      ((s.next = some q ∧ ∃ outer k, s.id.path = outer ++ [k] ∧ t.id.path = outer ++ [k + 1]) ∨
       (∃ i r, s.nested = some i ∧ l.range? i = some r ∧ r.first = some q ∧
          t.id.path = s.id.path ++ [1])) := by
  cases hl with
  | next u hu hq =>
    cases hs.symm.trans hu
    obtain ⟨t, outer, k, ht, -, hid, hid'⟩ := h.next_id p s q hs hq
    exact ⟨t, ht, by rw [hid'], .inl ⟨hq, outer, k, by rw [hid], by rw [hid']⟩⟩
  | nested u i r hu hi hr hq =>
    cases hs.symm.trans hu
    obtain ⟨r', hr', hparent, -⟩ := h.nested_parent p s i hs hi
    cases hr.symm.trans hr'
    obtain ⟨t, ht, hid, -⟩ := (h.sequence i r hr).first q hq
    obtain ⟨u, hu, houter, htyp⟩ := (h.sequence i r hr).outer p hparent
    cases hs.symm.trans hu
    exact ⟨t, ht, by rw [hid, htyp], .inr ⟨i, r, hi, hr, hq, by rw [hid, houter]⟩⟩

/-- Ordinals start at 1. -/
theorem path_of_reaches (h : l.Ordered) (hf : l.slot? f = some s) (hp : s.id.path = [1])
    (hq : l.Reaches f q) : ∃ t outer k, l.slot? q = some t ∧ t.id.typ = s.id.typ ∧
      t.id.path = outer ++ [k + 1] := by
  induction hq with
  | refl => exact ⟨s, [], 0, hf, rfl, hp⟩
  | tail _ hl ih =>
    obtain ⟨t, outer, k, ht, htyp, hpath⟩ := ih
    obtain ⟨u, hu, htyp', ⟨-, outer', k', -, hpath'⟩ | ⟨-, -, -, -, -, hpath'⟩⟩ := h.link_id hl ht
    · exact ⟨u, outer', k', hu, htyp'.trans htyp, hpath'⟩
    · exact ⟨u, _, 0, hu, htyp'.trans htyp, hpath'⟩

/-- The last link to a slot that can be reached: it leads to the next ordinal, which is not 1, or
to the first slot below. -/
theorem last_link (h : l.Ordered) (hf : l.slot? f = some s) (hp : s.id.path = [1])
    (hq : l.Reaches f p) (hl : l.Link p q) : ∃ u t outer k, l.slot? p = some u ∧
      l.slot? q = some t ∧ u.id.path = outer ++ [k + 1] ∧
      ((u.next = some q ∧ t.id.path = outer ++ [k + 2]) ∨
       (∃ i r, u.nested = some i ∧ l.range? i = some r ∧ r.first = some q ∧
          t.id.path = u.id.path ++ [1])) := by
  obtain ⟨u, outer, k, hu, -, hk⟩ := h.path_of_reaches hf hp hq
  obtain ⟨t, ht, -, ⟨hn, outer', k', hk', ht'⟩ | hnested⟩ := h.link_id hl hu
  · obtain ⟨rfl, rfl⟩ := List.append_singleton_inj.1 (hk'.symm.trans hk)
    exact ⟨u, t, outer', k, hu, ht, hk, .inl ⟨hn, ht'⟩⟩
  · exact ⟨u, t, outer, k, hu, ht, hk, .inr hnested⟩

theorem path_ne_of_link (h : l.Ordered) (hf : l.slot? f = some s) (hp : s.id.path = [1])
    (hq : l.Reaches f p) (hl : l.Link p q) (ht : l.slot? q = some t) : t.id.path ≠ [1] := by
  obtain ⟨u, t', outer, k, -, ht', hk, ⟨-, hpath⟩ | ⟨-, -, -, -, -, hpath⟩⟩ := h.last_link hf hp hq hl
  · cases ht.symm.trans ht'
    intro h1
    have h2 : outer ++ [k + 2] = [] ++ [1] := hpath.symm.trans h1
    have := (List.append_singleton_inj.1 h2).2
    omega
  · cases ht.symm.trans ht'
    intro h1
    have := congrArg List.length (hpath.symm.trans h1)
    simp [hk] at this

/-- A slot is found by its ordinals. -/
theorem eq_of_path_eq (h : l.Ordered) (hf : l.slot? f = some s) (hp : s.id.path = [1])
    (hq : l.Reaches f q) (hq' : l.Reaches f q') (ht : l.slot? q = some t)
    (hs' : l.slot? q' = some s') (hpath : t.id.path = s'.id.path) : q = q' := by
  induction hq generalizing q' t s' with
  | refl =>
    cases hf.symm.trans ht
    rcases Relation.ReflTransGen.cases_tail hq' with rfl | ⟨p, hfp, hl⟩
    · rfl
    · exact (h.path_ne_of_link hf hp hfp hl hs' (hpath.symm.trans hp)).elim
  | tail hfp hl ih =>
    rcases Relation.ReflTransGen.cases_tail hq' with rfl | ⟨p', hfp', hl'⟩
    · cases hf.symm.trans hs'
      exact (h.path_ne_of_link hf hp hfp hl ht (hpath.trans hp)).elim
    · obtain ⟨u, v, outer, k, hu, hv, hk, hstep⟩ := h.last_link hf hp hfp hl
      obtain ⟨u', v', outer', k', hu', hv', hk', hstep'⟩ := h.last_link hf hp hfp' hl'
      cases ht.symm.trans hv
      cases hs'.symm.trans hv'
      -- The last ordinal tells which sort of link leads to the slot.
      rcases hstep with ⟨hn, hm⟩ | ⟨i, r, hi, hr, hq, hm⟩ <;>
        rcases hstep' with ⟨hn', hm'⟩ | ⟨i', r', hi', hr', hq', hm'⟩ <;>
        rw [hm, hm', List.append_singleton_inj] at hpath
      · obtain rfl := ih hfp' hu hu' (by rw [hk, hk', hpath.1, show k = k' by omega])
        cases hu.symm.trans hu'
        exact Option.some.inj (hn.symm.trans hn')
      · omega
      · omega
      · obtain rfl := ih hfp' hu hu' hpath.1
        cases hu.symm.trans hu'
        cases hi.symm.trans hi'
        cases hr.symm.trans hr'
        exact Option.some.inj (hq.symm.trans hq')

end Ordered

end Layout

end Folio
