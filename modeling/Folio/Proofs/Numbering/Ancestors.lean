import Folio.Proofs.Numbering.Names
import Folio.Proofs.Numbering.Steps

/-!
# Ancestors of slots

A slot lies one level below its parent, which came before it. `Layout.Leveled` states this, together
with what a range has to know of levels to keep it up, and it holds after every run, whatever the
leads of ranges are (`Numbering.leveled_run`). So the way up from a slot ends at level 0 and meets
every level on the way, each at one slot (`Layout.Leveled.exists_ancestor`,
`Layout.Leveled.eq_of_rises`).

A lead that follows a master goes down from the latest slot of the range in use, as far as there are
latest slots below (`Layout.Descends`), and from there up to its limit. Main statement:
`Numbering.ofMaster_run`.
-/

namespace Folio

namespace Layout

/-- What lies below the slot at `parent`, or at the top, has the given level. -/
inductive AtLevel (l : Layout) : Option SlotId → Nat → Prop
  | top : AtLevel l none 0
  | below {p : SlotId} {t : Slot} (h : l.slot? p = some t) : AtLevel l (some p) (t.level + 1)

/-- Slots and ranges lie one level below their parents, and parents came before. -/
structure Leveled (l : Layout) : Prop extends l.Ordered where
  slot_level : ∀ q s, l.slot? q = some s → l.AtLevel s.parent s.level
  slot_parent : ∀ q s p, l.slot? q = some s → s.parent = some p → p.index < q.index
  range_level : ∀ i r, l.range? i = some r → l.AtLevel r.parent r.level
  current_level : ∀ i r q, l.range? i = some r → r.current = some q →
    ∃ s, l.slot? q = some s ∧ s.level = r.level

variable {l l' : Layout}

theorem AtLevel.mono {parent : Option SlotId} {level : Nat} (h : l.AtLevel parent level)
    (hslot : ∀ q s, l.slot? q = some s → ∃ s', l'.slot? q = some s' ∧ s'.level = s.level) :
    l'.AtLevel parent level := by
  cases h with
  | top => exact .top
  | below hp =>
    obtain ⟨s', hs', hlevel⟩ := hslot _ _ hp
    rw [← hlevel]
    exact .below hs'

namespace Leveled

/-! ## What operations do -/

theorem empty : ({} : Layout).Leveled where
  toOrdered := .empty
  slot_level q s hs := by simp [slot?] at hs
  slot_parent q s p hs := by simp [slot?] at hs
  range_level i r hr := by simp [range?] at hr
  current_level i r q hr := by simp [range?] at hr

theorem claimed (h : l.Leveled) {range : RangeId} {r : Range} {opened : Bool} {lead : Option SlotId}
    {pinned : Option Nat} (hc : l.Claimed l' range r opened lead pinned) : l'.Leveled := by
  have hkept : ∀ q s, l.slot? q = some s → ∃ s', l'.slot? q = some s' ∧ s'.level = s.level :=
    fun q s hs => ⟨_, hc.slot_old hs, Slot.linked_level ..⟩
  refine ⟨h.toOrdered.claimed hc, fun q t ht => ?_, fun q t p ht hp => ?_, fun i u hu => ?_,
    fun i u q hu hq => ?_⟩
  · rcases hc.slot_cases ht with ⟨-, rfl⟩ | ⟨s, hs, rfl⟩
    · exact (h.range_level range r hc.before).mono hkept
    · rw [Slot.linked_parent, Slot.linked_level]
      exact (h.slot_level q s hs).mono hkept
  · rcases hc.slot_cases ht with ⟨rfl, rfl⟩ | ⟨s, hs, rfl⟩
    · exact h.parent_lt range r p hc.before hp
    · exact h.slot_parent q s p hs (by simpa using hp)
  · by_cases hi : i = range
    · subst hi
      cases hc.range_self.symm.trans hu
      exact (h.range_level i r hc.before).mono hkept
    · exact (h.range_level i u ((hc.range_other hi).symm.trans hu)).mono hkept
  · by_cases hi : i = range
    · subst hi
      cases hc.range_self.symm.trans hu
      cases hq
      exact ⟨_, hc.slot_fresh, rfl⟩
    · obtain ⟨s, hs, hlevel⟩ := h.current_level i u q ((hc.range_other hi).symm.trans hu) hq
      exact ⟨_, hc.slot_old hs, by rw [Slot.linked_level, hlevel]⟩

theorem rearranged (h : l.Leveled) (hl : l.Rearranged l') (ho : l'.Ordered) : l'.Leveled := by
  have hkept : ∀ q s, l.slot? q = some s → ∃ s', l'.slot? q = some s' ∧ s'.level = s.level :=
    fun q s hs => ⟨s, (hl.slot q).trans hs, rfl⟩
  refine ⟨ho, fun q s hs => ?_, fun q s p hs => ?_, fun i r' hr' => ?_, fun i r' q hr' hq => ?_⟩
  · exact (h.slot_level q s ((hl.slot q).symm.trans hs)).mono hkept
  · exact h.slot_parent q s p ((hl.slot q).symm.trans hs)
  · cases hl.range i r' hr' with
    | beside j r hr hparent hlevel =>
      rw [hparent, hlevel]
      exact (h.range_level j r hr).mono hkept
    | top hparent hlevel =>
      rw [hparent, hlevel]
      exact .top
    | below j r p hr hp hparent hlevel =>
      obtain ⟨s, hs, hs'⟩ := h.current_level j r p hr hp
      rw [hparent, hlevel, ← hs']
      exact .below ((hl.slot p).trans hs)
  · rw [hl.slot]
    cases hl.range i r' hr' with
    | beside j r hr _ hlevel hcurrent =>
      rw [hlevel]
      exact h.current_level j r q hr (hcurrent.symm.trans hq)
    | top _ _ hcurrent => simp [hcurrent] at hq
    | below _ _ _ _ _ _ _ hcurrent => simp [hcurrent] at hq

theorem relabeled (h : l.Leveled) (hl : l.Relabeled l') : l'.Leveled := by
  have hkept : ∀ q s, l.slot? q = some s → ∃ s', l'.slot? q = some s' ∧ s'.level = s.level := by
    intro q s hs
    obtain ⟨label, hs'⟩ := hl.slot q s hs
    exact ⟨_, hs', rfl⟩
  refine ⟨h.toOrdered.relabeled hl, fun q s hs => ?_, fun q s p hs hp => ?_, fun i r hr => ?_,
    fun i r q hr hq => ?_⟩
  · obtain ⟨label, hs'⟩ := hl.symm.slot q s hs
    exact (h.slot_level q _ hs').mono hkept
  · obtain ⟨label, hs'⟩ := hl.symm.slot q s hs
    exact h.slot_parent q _ p hs' hp
  · exact (h.range_level i r ((hl.range? i).symm.trans hr)).mono hkept
  · obtain ⟨s, hs, hlevel⟩ := h.current_level i r q ((hl.range? i).symm.trans hr) hq
    obtain ⟨s', hs', hlevel'⟩ := hkept q s hs
    exact ⟨s', hs', hlevel'.trans hlevel⟩

end Leveled

/-! ## The way up -/

/-- A slot is another one, or the way up from it leads there. -/
abbrev Rises (l : Layout) : SlotId → SlotId → Prop :=
  Relation.ReflTransGen fun p q => l.parent? p = some q

theorem parent?_eq_some {p q : SlotId} :
    l.parent? p = some q ↔ ∃ s, l.slot? p = some s ∧ s.parent = some q :=
  Option.bind_eq_some_iff

namespace Leveled

variable {p q a b : SlotId} {s t u : Slot}

theorem level_eq_of_parent (h : l.Leveled) (hs : l.slot? q = some s) (hp : s.parent = some p) :
    ∃ t, l.slot? p = some t ∧ s.level = t.level + 1 := by
  have hlevel := h.slot_level q s hs
  rw [hp] at hlevel
  generalize s.level = level at hlevel
  cases hlevel with
  | below ht => exact ⟨_, ht, rfl⟩

/-- Levels fall on the way up. -/
theorem level_lt_of_rises (h : l.Leveled) (hr : l.Rises q a) (hs : l.slot? q = some s) :
    ∃ t, l.slot? a = some t ∧ (a = q ∨ t.level < s.level) := by
  induction hr with
  | refl => exact ⟨s, hs, .inl rfl⟩
  | tail _ hparent ih =>
    obtain ⟨t, ht, hlevel⟩ := ih
    obtain ⟨t', ht', hp⟩ := parent?_eq_some.1 hparent
    cases ht.symm.trans ht'
    obtain ⟨u, hu, hstep⟩ := h.level_eq_of_parent ht hp
    refine ⟨u, hu, .inr ?_⟩
    rcases hlevel with rfl | hlevel
    · cases hs.symm.trans ht
      omega
    · omega

/-- On the way up there is one slot of a level at most. -/
theorem eq_of_rises (h : l.Leveled) (ha : l.Rises q a) (hb : l.Rises q b)
    (ht : l.slot? a = some t) (hu : l.slot? b = some u) (hlevel : u.level = t.level) : b = a := by
  have hunique : Relator.RightUnique fun p q => l.parent? p = some q :=
    fun _ _ _ hp hq => Option.some.inj (hp.symm.trans hq)
  rcases Relation.ReflTransGen.total_of_right_unique hunique ha hb with hab | hba
  · obtain ⟨u', hu', hcases⟩ := h.level_lt_of_rises hab ht
    cases hu.symm.trans hu'
    exact hcases.resolve_right (by omega)
  · obtain ⟨t', ht', hcases⟩ := h.level_lt_of_rises hba hu
    cases ht.symm.trans ht'
    exact (hcases.resolve_right (by omega)).symm

/-- On the way up there is a slot at a limit, or the slot itself does not exceed it. -/
theorem exists_ancestor (h : l.Leveled) (limit : Nat) {fuel : Nat} (hfuel : q.index < fuel)
    (hs : l.slot? q = some s) : ∃ a t, l.ancestor limit fuel q = some a ∧ l.slot? a = some t ∧
      l.Rises q a ∧ t.level = min s.level limit := by
  induction fuel generalizing q s with
  | zero => omega
  | succ fuel ih =>
    rw [ancestor, hs]
    dsimp only
    split
    next hle => exact ⟨q, s, rfl, hs, .refl, (Nat.min_eq_left hle).symm⟩
    next hgt =>
      -- a slot above the limit is not at the top
      obtain ⟨p, hp⟩ : ∃ p, s.parent = some p := by
        cases hp : s.parent with
        | some p => exact ⟨p, rfl⟩
        | none =>
          have hlevel := h.slot_level q s hs
          rw [hp] at hlevel
          generalize s.level = level at hlevel hgt
          cases hlevel with
          | top => exact (hgt (Nat.zero_le _)).elim
      obtain ⟨u, hu, hlevel⟩ := h.level_eq_of_parent hs hp
      have hlt := h.slot_parent q s p hs hp
      obtain ⟨a, t, ha, ht, hrises, hmin⟩ := ih (by omega) hu
      refine ⟨a, t, ?_, ht, .head (parent?_eq_some.2 ⟨s, hs, hp⟩) hrises, by omega⟩
      rw [hp, Option.bind_some, ha]

end Leveled

/-! ## The way down -/

/-- The latest slot of the range below a slot. -/
def below? (l : Layout) (p : SlotId) : Option SlotId :=
  ((l.slot? p).bind Slot.nested).bind l.current

/-- The way down over latest slots leads from a slot to one that has none below it. -/
inductive Descends (l : Layout) : SlotId → SlotId → Prop
  | stop {p : SlotId} (h : l.below? p = none) : Descends l p p
  | down {p q x : SlotId} (h : l.below? p = some q) (hx : Descends l q x) : Descends l p x

namespace Leveled

variable {p q : SlotId}

/-- The latest slot below a slot came after it. -/
theorem lt_of_below? (h : l.Leveled) (hq : l.below? p = some q) :
    p.index < q.index ∧ q.index < l.slots.size := by
  obtain ⟨i, hi, hcurrent⟩ := Option.bind_eq_some_iff.1 hq
  obtain ⟨s, hs, hnested⟩ := Option.bind_eq_some_iff.1 hi
  obtain ⟨r, hr, hparent, -⟩ := h.nested_parent p s i hs hnested
  obtain ⟨r', hr', hq⟩ := Option.bind_eq_some_iff.1 hcurrent
  cases hr.symm.trans hr'
  obtain ⟨t, ht, -, hp, -⟩ := (h.sequence i r hr).latest q hq
  exact ⟨h.slot_parent q t p ht (hp.trans hparent), slot?_lt ht⟩

theorem descends_deepest (h : l.Leveled) {fuel : Nat} (hp : p.index < l.slots.size)
    (hfuel : l.slots.size ≤ fuel + p.index) :
    l.Descends p (l.deepest fuel p) ∧ (l.deepest fuel p).index < l.slots.size := by
  induction fuel generalizing p with
  | zero => omega
  | succ fuel ih =>
    rw [deepest]
    cases hq : l.below? p with
    | none =>
      rw [below?] at hq
      rw [hq]
      exact ⟨.stop hq, hp⟩
    | some q =>
      obtain ⟨hlt, hsize⟩ := h.lt_of_below? hq
      obtain ⟨hx, hlast⟩ := ih hsize (by omega)
      rw [below?] at hq
      rw [hq]
      exact ⟨.down hq hx, hlast⟩

/-- The way down from the latest slot of a range comes to an end. -/
theorem exists_actual (h : l.Leveled) {i : RangeId} {c : SlotId} (hc : l.current i = some c) :
    ∃ x s, l.actual i = some x ∧ l.Descends c x ∧ l.slot? x = some s := by
  obtain ⟨r, hr, hcurrent⟩ := Option.bind_eq_some_iff.1 hc
  obtain ⟨hx, hlt⟩ := h.descends_deepest (h.current_lt i r c hr hcurrent) (Nat.le_add_right _ _)
  obtain ⟨s, hs⟩ := slot?_isSome hlt
  exact ⟨_, s, by rw [actual, hc, Option.map_some], hx, hs⟩

end Leveled

end Layout

/-! ## Leads that follow a master -/

namespace Numbering

open Layout

theorem leveled_perform {n : Numbering} (h : n.layout.Leveled) (op : Operation) :
    (n.perform op).layout.Leveled := by
  have ho := ordered_perform h.toOrdered op
  rcases perform_cases h.toSound op with
    ⟨range, incoming, hl⟩ | hl | ⟨range, r, opened, pinned, l, -, hc, hl⟩
  · exact h.relabeled (createLabels_relabeled hl)
  · exact h.rearranged hl ho
  · exact (h.claimed hc).rearranged hl ho

/-- After any run, slots lie one level below their parents. -/
theorem leveled_run (ops : List Operation) : (run {} ops).layout.Leveled :=
  run_induction (I := fun n => n.layout.Leveled) .empty (fun _ op h => leveled_perform h op) ops

/-- After any run, a lead that follows a master finds a slot as soon as the range in use has one:
the way down from the latest slot of the range comes to an end, and on the way up from there the
slot is the only one whose level is the smaller one of the limit and the level at the end. -/
theorem ofMaster_run (ops : List Operation) (limit : Option Nat) {master : String} {range : RangeId}
    {c : SlotId} (hactive : (run {} ops).layout.active? master = some range)
    (hcurrent : (run {} ops).layout.current range = some c) :
    let l := (run {} ops).layout
    ∃ x s a t, l.actual range = some x ∧ l.Descends c x ∧ l.slot? x = some s ∧
      Lead.ofMaster master limit l = some a ∧ l.slot? a = some t ∧ l.Rises x a ∧
      t.level = limit.elim s.level (min s.level) ∧
      ∀ b u, l.Rises x b → l.slot? b = some u → u.level = t.level → b = a := by
  intro l
  have h : l.Leveled := leveled_run ops
  obtain ⟨x, s, hx, hdescends, hs⟩ := h.exists_actual hcurrent
  have hlead : Lead.ofMaster master limit l = l.atLimit limit x := by
    rw [Lead.ofMaster, hactive, Option.bind_some, hx, Option.bind_some]
  obtain ⟨a, t, ha, ht, hrises, hlevel⟩ : ∃ a t, l.atLimit limit x = some a ∧ l.slot? a = some t ∧
      l.Rises x a ∧ t.level = limit.elim s.level (min s.level) := by
    cases limit with
    | none => exact ⟨x, s, rfl, hs, .refl, rfl⟩
    | some k => exact h.exists_ancestor k (slot?_lt hs) hs
  exact ⟨x, s, a, t, hx, hdescends, hs, hlead.trans ha, ht, hrises, hlevel,
    fun b u hb hu hlevel => h.eq_of_rises hrises hb ht hu hlevel⟩

/-- In use is a handle on a slot of level 2 that has a slot of level 3 below it. With the limit 1,
the lead is the slot that the handle lies below. -/
theorem ofMaster_run_handle :
    let ops : List Operation := [.newRange "section" "" none, .next ⟨0⟩, .sub ⟨0⟩, .next ⟨1⟩,
      .sub ⟨1⟩, .assign ⟨2⟩ none, .sub ⟨3⟩, .next ⟨4⟩, .setActive [("section", ⟨3⟩)]]
    let l := (run {} ops).layout
    l.active? "section" = some ⟨3⟩ ∧ l.current ⟨3⟩ = some ⟨2⟩ ∧ l.actual ⟨3⟩ = some ⟨3⟩ ∧
      l.parent? ⟨2⟩ = some ⟨1⟩ ∧ Lead.ofMaster "section" (some 1) l = some ⟨1⟩ := by
  intro ops l
  obtain ⟨x, s, a, t, hx, -, hs, ha, -, -, hlevel, hunique⟩ :=
    @ofMaster_run ops (some 1) "section" ⟨3⟩ ⟨2⟩ rfl rfl
  cases (show l.actual ⟨3⟩ = some ⟨3⟩ from rfl).symm.trans hx
  cases (show l.slot? ⟨3⟩ = some _ from rfl).symm.trans hs
  have hrises : l.Rises ⟨3⟩ ⟨1⟩ := .head (b := ⟨2⟩) rfl (.single rfl)
  obtain rfl := hunique ⟨1⟩ _ hrises rfl hlevel.symm
  exact ⟨rfl, rfl, rfl, rfl, ha⟩

end Numbering

end Folio
