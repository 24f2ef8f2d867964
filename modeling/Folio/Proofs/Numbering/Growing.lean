import Folio.Proofs.Numbering.Links

/-!
# Where a range stands

A range that grows gives its next slot the next ordinal (`Growing.claim`), and a handle gives the
slot that it was made for (`Offers.claim`). What is opened below a slot starts from the ordinals of
the slot. All other ranges stay as they are (`Layout.Beside`), so it is known at any time what the
next slot of a range will be.
-/

namespace Folio

namespace Layout

/-- A slot has an id. -/
def HasId (l : Layout) (q : SlotId) (id : LabelId) : Prop :=
  ∃ s, l.slot? q = some s ∧ s.id = id

/-- A range grows, and its latest slot has the ordinal `count` behind `outer`. -/
def Growing (l : Layout) (i : RangeId) (typ : String) (outer : List Nat) (count : Nat) : Prop :=
  ∃ r, l.range? i = some r ∧ r.stage = .growing ∧ r.typ = typ ∧ r.ordinals = ⟨outer, count⟩

/-- A range was made for a slot that is still to be handed out. -/
def Offers (l : Layout) (i : RangeId) (id : LabelId) : Prop :=
  ∃ r q, l.range? i = some r ∧ r.stage = .assigned ∧ r.typ = id.typ ∧ r.current = some q ∧
    l.HasId q id

/-- Slots keep their ids, and all ranges but one stay as they are. -/
structure Beside (l l' : Layout) (range : RangeId) : Prop where
  slot : ∀ q id, l.HasId q id → l'.HasId q id
  range : ∀ i r, i ≠ range → l.range? i = some r → l'.range? i = some r

variable {l l' l'' : Layout} {range i : RangeId} {typ : String} {outer : List Nat} {count : Nat}
  {id : LabelId}

theorem Growing.isSome (h : l.Growing i typ outer count) : ∃ r, l.range? i = some r :=
  let ⟨r, hr, _⟩ := h
  ⟨r, hr⟩

theorem Growing.ne_of_offers (h : l.Growing i typ outer count) (ho : l.Offers range id) :
    range ≠ i := by
  rintro rfl
  obtain ⟨r, hr, hg, -⟩ := h
  obtain ⟨r', q, hr', ha, -⟩ := ho
  cases hr.symm.trans hr'
  simp [hg] at ha

namespace Beside

theorem trans (h : l.Beside l' range) (h' : l'.Beside l'' range) : l.Beside l'' range :=
  ⟨fun q id hq => h'.slot q id (h.slot q id hq),
    fun i r hi hr => h'.range i r hi (h.range i r hi hr)⟩

theorem growing (h : l.Beside l' range) (hi : i ≠ range) (hg : l.Growing i typ outer count) :
    l'.Growing i typ outer count :=
  let ⟨r, hr, hrest⟩ := hg
  ⟨r, h.range i r hi hr, hrest⟩

theorem offers (h : l.Beside l' range) (hi : i ≠ range) (ho : l.Offers i id) : l'.Offers i id :=
  let ⟨r, q, hr, ha, ht, hc, hq⟩ := ho
  ⟨r, q, h.range i r hi hr, ha, ht, hc, h.slot q id hq⟩

theorem claimed {r : Range} {opened : Bool} {lead : Option SlotId} {pinned : Option Nat}
    (h : l.Claimed l' range r opened lead pinned) : l.Beside l' range where
  slot q id hq := by
    obtain ⟨s, hs, rfl⟩ := hq
    exact ⟨_, h.slot_old hs, by simp⟩
  range i u hi hu := (h.range_other hi).trans hu

theorem addRange (l : Layout) (new : Range) : l.Beside (l.addRange new).2 range where
  slot _ _ hq := hq
  range _ _ _ hr := range?_addRange_of_some hr new

variable {n n' : Numbering}

theorem next (hs : n.layout.Sound) {slot : SlotId} (h : n.next range = .ok (slot, n')) :
    n.layout.Beside n'.layout range := by
  obtain ⟨r, hr, -, ⟨-, -, rfl⟩ | ⟨-, heq⟩⟩ := Numbering.next_cases h
  · refine ⟨fun _ _ hq => hq, fun i u hi hu => ?_⟩
    rw [range?_setRange, if_neg hi, hu]
  · cases heq
    exact claimed (hs.claim hr false none)

theorem sub {below : RangeId} (h : n.sub range = .ok (below, n')) :
    n.layout.Beside n'.layout range := by
  obtain ⟨r, slot, s, -, -, -, -, -, -, ho⟩ := Numbering.sub_cases h
  refine ⟨fun q id hq => ?_, fun i u hi hu => ?_⟩
  · obtain ⟨t, ht, hid⟩ := hq
    exact ⟨t, (ho.slot q).trans ht, hid⟩
  · rw [ho.range, if_neg (by rintro rfl; simp at hu), if_neg hi, hu]

theorem assign (hs : n.layout.Sound) {level : Option Nat} {handle : RangeId}
    (h : n.assign range level = .ok (handle, n')) : n.layout.Beside n'.layout range := by
  obtain ⟨r, hr, rfl, -, hl⟩ := Numbering.assign_cases h
  rw [hl]
  exact (claimed (hs.claim hr r.subOpened level)).trans
    (.addRange _ (r.handle n.layout.freshSlot (n.leadFor range r) level))

end Beside

/-! ## The operations -/

variable {n n' n₁ n₂ : Numbering} {slot : SlotId} {below : RangeId}

/-- The range below a slot starts from the ordinals of the slot. -/
theorem growing_of_sub_below {r : Range} (hr : n.layout.range? range = some r)
    (hc : r.current = some slot) (hq : n.layout.HasId slot id) (ht : r.typ = id.typ)
    (h : n.sub range = .ok (below, n')) : n'.layout.Growing below id.typ id.path 0 := by
  obtain ⟨u, q, s, hu, hc', hs, -, rfl, -, ho⟩ := Numbering.sub_cases h
  cases hr.symm.trans hu
  cases hc.symm.trans hc'
  obtain ⟨s', hs', rfl⟩ := hq
  cases hs.symm.trans hs'
  have hbelow := ho.range n.layout.freshRange
  rw [if_pos rfl] at hbelow
  exact ⟨_, hbelow, rfl, ht, rfl⟩

theorem Growing.sub (hg : n.layout.Growing range typ outer count)
    (h : n.sub range = .ok (below, n')) : n'.layout.Growing range typ outer count := by
  obtain ⟨r, hr, hrest⟩ := hg
  obtain ⟨u, q, s, hu, -, -, -, -, -, ho⟩ := Numbering.sub_cases h
  cases hr.symm.trans hu
  have hrange := ho.range range
  rw [if_neg (ne_freshRange hr), if_pos rfl, hr, Option.map_some] at hrange
  exact ⟨_, hrange, hrest⟩

/-- A range that grows claims the next slot. -/
theorem Growing.next (hs : n.layout.Sound) (hg : n.layout.Growing range typ outer count)
    (h : n.next range = .ok (slot, n')) : n'.layout.HasId slot ⟨typ, outer ++ [count + 1]⟩ ∧
      ∃ r, n'.layout.range? range = some r ∧ r.current = some slot ∧ r.stage = .growing ∧
        r.typ = typ ∧ r.ordinals = ⟨outer, count + 1⟩ := by
  obtain ⟨r, hr, hstage, rfl, hord⟩ := hg
  obtain ⟨u, hu, -, ⟨ha, -⟩ | ⟨-, heq⟩⟩ := Numbering.next_cases h
  · cases hr.symm.trans hu
    simp [hstage] at ha
  · cases hr.symm.trans hu
    have hc := hs.claim hr false none
    have hslot : slot = n.layout.freshSlot := by
      rw [Numbering.claim_eq] at heq
      exact congrArg Prod.fst heq
    have hn' : n' = (n.claim range { r with subOpened := false } none).2 := congrArg Prod.snd heq
    rw [hslot, hn']
    exact ⟨⟨_, hc.slot_fresh, by simp [Range.newSlot, Ordinals.next, Ordinals.id, hord]⟩,
      _, hc.range_self, rfl, hstage, rfl, by simp [Range.grown, Ordinals.next, hord]⟩

/-- A labeled node claims the next slot of a range that grows. -/
theorem Growing.claim (hs : n.layout.Sound) (hg : n.layout.Growing range typ outer count)
    (hn : n.next range = .ok (slot, n₁)) (h : n₁.sub range = .ok (below, n₂)) :
    n₂.layout.HasId slot ⟨typ, outer ++ [count + 1]⟩ ∧
      n₂.layout.Growing range typ outer (count + 1) ∧
      n₂.layout.Growing below typ (outer ++ [count + 1]) 0 := by
  obtain ⟨hq, r, hr, hc, hstage, ht, hord⟩ := hg.next hs hn
  exact ⟨(Beside.sub h).slot slot _ hq, Growing.sub ⟨r, hr, hstage, ht, hord⟩ h,
    growing_of_sub_below hr hc hq ht h⟩

/-- A labeled node gets the slot that a range was made for. -/
theorem Offers.claim (ho : n.layout.Offers range id) (hn : n.next range = .ok (slot, n₁))
    (h : n₁.sub range = .ok (below, n₂)) :
    n₂.layout.HasId slot id ∧ n₂.layout.Growing below id.typ id.path 0 := by
  obtain ⟨r, q, hr, hstage, ht, hc, hq⟩ := ho
  obtain ⟨u, hu, -, ⟨-, hslot, rfl⟩ | ⟨hnone, -⟩⟩ := Numbering.next_cases hn
  · cases hr.symm.trans hu
    cases hc.symm.trans hslot
    have hr' := range?_setRange n.layout range
      { r with subOpened := false, stage := .finalized } range
    rw [if_pos rfl, hr, Option.map_some] at hr'
    refine ⟨(Beside.sub h).slot slot _ hq, ?_⟩
    exact growing_of_sub_below (n := ⟨n.layout.setRange range
      { r with subOpened := false, stage := .finalized }, n.leads⟩) hr' hc hq ht h
  · cases hr.symm.trans hu
    simp [hnone hstage] at hc

/-- A reference claims the next slot of a range that grows, and makes a range for it. -/
theorem Growing.assign (hs : n.layout.Sound) (hg : n.layout.Growing range typ outer count)
    {level : Option Nat} {handle : RangeId} (h : n.assign range level = .ok (handle, n')) :
    n'.layout.Growing range typ outer (count + 1) ∧
      n'.layout.Offers handle ⟨typ, outer ++ [count + 1]⟩ ∧ n.layout.Beside n'.layout range ∧
      n.layout.range? handle = none := by
  obtain ⟨r, hr, hstage, rfl, hord⟩ := hg
  obtain ⟨u, hu, rfl, -, hl⟩ := Numbering.assign_cases h
  cases hr.symm.trans hu
  have hc := hs.claim hr r.subOpened level
  obtain ⟨u, hu', hhandle⟩ := Numbering.range?_handle h
  cases hr.symm.trans hu'
  have hself := range?_addRange_of_some hc.range_self
    (r.handle n.layout.freshSlot (n.leadFor range r) level)
  have hslot := hc.slot_fresh
  rw [← hl] at hself
  refine ⟨⟨_, hself, hstage, rfl, ?_⟩, ⟨_, _, hhandle, rfl, rfl, rfl, ?_⟩, .assign hs h, by simp⟩
  · simp [Range.grown, Ordinals.next, hord]
  · rw [hl]
    exact ⟨_, hslot, by simp [Range.newSlot, Ordinals.next, Ordinals.id, hord]⟩

end Layout

end Folio
