import Folio.Node
import Folio.Proofs.Numbering.Growth

/-!
# Where rules and levels come from

A range at the top has the rule that it was opened with. A range inside a labeled node has what the
node declares for it, if anything. A slot that is handed over to a document, and the range that
hands it over, have the level that the document declares. Nothing else sets a rule or a level.

`Layout.DeclaredBy` states this for a layout. Claims keep it up, as long as what they are given is
declared.
-/

namespace Folio

/-- What is declared for ranges and slots. -/
structure Declarations where
  /-- The rules of ranges at the top. -/
  top : LabelRule → Prop
  /-- What labeled nodes say about the ranges inside them. -/
  nested : NestedRule → Prop
  /-- The levels of slots that are handed over. -/
  level : Nat → Prop

variable {D : Declarations}

/-- Rule and level of a range are declared. -/
inductive Range.DeclaredBy (D : Declarations) (r : Range) : Prop
  | top (rule : LabelRule) (h : D.top rule) (hp : r.parent = none) (hr : r.rule = some rule)
    (hw : r.weight = none)
  | nested (nested : NestedRule) (h : D.nested nested) (hp : r.parent ≠ none)
    (hr : r.rule = nested.rule) (hw : r.weight = nested.level)
  | handed (hr : r.rule = none) (hw : ∀ level, r.weight = some level → D.level level)

/-- All rules and levels in a layout are declared. -/
structure Layout.DeclaredBy (D : Declarations) (l : Layout) : Prop where
  range : ∀ i r, l.range? i = some r → r.DeclaredBy D
  pinned : ∀ q s level, l.slot? q = some s → s.pinned = some level → D.level level

theorem Range.DeclaredBy.same {r r' : Range} (h : r.DeclaredBy D) (hs : r.SameSettings r') :
    r'.DeclaredBy D := by
  cases h with
  | top rule h hp hr hw =>
    exact .top rule h (hs.parent.trans hp) (hs.rule.trans hr) (hs.weight.trans hw)
  | nested nested h hp hr hw =>
    exact .nested nested h (hs.parent ▸ hp) (hs.rule.trans hr) (hs.weight.trans hw)
  | handed hr hw => exact .handed (hs.rule.trans hr) fun level hl => hw level (hs.weight ▸ hl)

namespace Layout.DeclaredBy

variable {l l' : Layout} {n n' : Numbering} {range : RangeId}

theorem empty : ({} : Layout).DeclaredBy D := by
  constructor <;> simp [slot?, range?]

/-- Slots are claimed whose levels are declared, ranges keep their settings, and new ones have
declared settings. -/
theorem grow (h : l.DeclaredBy D)
    (hrange : ∀ i r', l'.range? i = some r' →
      (∃ r, l.range? i = some r ∧ r.SameSettings r') ∨ r'.DeclaredBy D)
    (hslot : ∀ q t level, l'.slot? q = some t → t.pinned = some level →
      (∃ s, l.slot? q = some s ∧ s.pinned = some level) ∨ D.level level) : l'.DeclaredBy D where
  range i r' hr' := by
    rcases hrange i r' hr' with ⟨r, hr, hsame⟩ | hr'
    · exact (h.range i r hr).same hsame
    · exact hr'
  pinned q t level ht hl := by
    rcases hslot q t level ht hl with ⟨s, hs, hl⟩ | hl
    · exact h.pinned q s level hs hl
    · exact hl

theorem claimed {r : Range} {opened : Bool} {lead : Option SlotId} {pinned : Option Nat}
    (h : l.DeclaredBy D) (hc : l.Claimed l' range r opened lead pinned)
    (hp : ∀ level, pinned = some level → D.level level) : l'.DeclaredBy D := by
  refine h.grow (fun i u' hu' => .inl ?_) fun q t level ht hl => ?_
  · by_cases hi : i = range
    · subst hi
      cases hc.range_self.symm.trans hu'
      exact ⟨r, hc.before, rfl, rfl, rfl, rfl, rfl⟩
    · exact ⟨u', (hc.range_other hi).symm.trans hu', .refl u'⟩
  · rcases hc.slot_cases ht with ⟨rfl, rfl⟩ | ⟨s, hs, rfl⟩
    · exact .inr (hp level hl)
    · exact .inl ⟨s, hs, by simpa using hl⟩

theorem setActive (h : n.layout.DeclaredBy D) (active : List (String × RangeId)) :
    (n.setActive active).layout.DeclaredBy D :=
  ⟨h.range, h.pinned⟩

theorem next (h : n.layout.DeclaredBy D) (hs : n.layout.Sound) {slot : SlotId}
    (hn : n.next range = .ok (slot, n')) : n'.layout.DeclaredBy D := by
  obtain ⟨r, hr, -, ⟨-, -, rfl⟩ | ⟨-, heq⟩⟩ := Numbering.next_cases hn
  · refine h.grow (fun i u' hu' => .inl ?_) fun q t level ht hl => .inl ⟨t, ht, hl⟩
    rw [range?_setRange] at hu'
    split at hu'
    next hi =>
      rw [hi, hr] at hu'
      cases hu'
      exact ⟨r, hi ▸ hr, rfl, rfl, rfl, rfl, rfl⟩
    · exact ⟨u', hu', .refl u'⟩
  · cases heq
    exact h.claimed (hs.claim hr false none) (by simp)

theorem sub (h : n.layout.DeclaredBy D) {below : RangeId} (hn : n.sub range = .ok (below, n')) :
    n'.layout.DeclaredBy D := by
  obtain ⟨r, slot, s, hr, -, -, -, -, -, ho⟩ := Numbering.sub_cases hn
  refine h.grow (fun i u' hu' => ?_) fun q t level ht hl => .inl ⟨t, ho.slot q ▸ ht, hl⟩
  rw [ho.range] at hu'
  split at hu'
  · cases hu'
    exact .inr (.handed rfl (by simp))
  · split at hu'
    next hi =>
      rw [hi, hr] at hu'
      cases hu'
      exact .inl ⟨r, hi ▸ hr, rfl, rfl, rfl, rfl, rfl⟩
    · exact .inl ⟨u', hu', .refl u'⟩

theorem assign (h : n.layout.DeclaredBy D) (hs : n.layout.Sound) {level : Option Nat}
    {handle : RangeId} (hn : n.assign range level = .ok (handle, n'))
    (hlevel : ∀ l, level = some l → D.level l) : n'.layout.DeclaredBy D := by
  obtain ⟨r, hr, -, -, hl⟩ := Numbering.assign_cases hn
  rw [hl]
  refine (h.claimed (hs.claim hr r.subOpened level) hlevel).grow (fun i u' hu' => ?_)
    fun q t level ht hl => .inl ⟨t, ht, hl⟩
  rw [range?_addRange] at hu'
  split at hu'
  · cases hu'
    exact .inr (.handed rfl hlevel)
  · exact .inl ⟨u', hu', .refl u'⟩

end Layout.DeclaredBy

end Folio
