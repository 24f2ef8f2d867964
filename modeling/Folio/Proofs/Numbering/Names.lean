import Folio.Proofs.Numbering.Plain
import Std.Data.String.ToNat

/-!
# The names of counted labels

Where a label type counts plainly, the rule that a walk comes to a slot with stands at the id of
the slot: the ordinals of its counter are those of the id, and the numbers that it shows are the
same ones except for the first, which starts again whenever the lead changes along the slots at the
top (`Layout.Shown`, `Counts.numbered`). Without leads nothing starts again, so that all the
numbers are those of the id (`Counts.numbered_of_unled`).

Numbers with points between them can be read back (`dotted_injective`).
-/

namespace Folio

/-! ## Counters at an id -/

namespace Counter

/-- A counter stands at the given ordinals and shows `m` in place of the first one. -/
structure Stands (c : Counter) (typ : String) (m : Nat) (path : List Nat) : Prop where
  typ : c.typ = typ
  ids : c.places.map Place.ordinal = path
  numbers : c.numbers = m :: path.tail
  level : c.level = some ((path.length - 1) % levelCount)

variable {c : Counter} {typ : String} {m k : Nat} {path outer : List Nat}

theorem ordinals_eq (c : Counter) : c.places.map Place.ordinal =
    (c.outer.map Place.ordinal).reverse ++ [c.place.ordinal] := by
  simp [places]

theorem numbers_eq (c : Counter) :
    c.numbers = (c.outer.map Place.shown).reverse ++ [c.place.shown] := by
  simp [numbers, places]

namespace Stands

theorem first (typ : String) : (top typ (some 0)).next.Stands typ 1 [1] :=
  ⟨rfl, rfl, rfl, rfl⟩

theorem outer_eq_nil (h : c.Stands typ m [k]) : c.outer = [] := by
  have := congrArg List.length ((ordinals_eq c).symm.trans h.ids)
  simpa using this

theorem next_top (h : c.Stands typ m [k]) : c.next.Stands typ (m + 1) [k + 1] := by
  have hout := h.outer_eq_nil
  have hids := h.ids
  have hnumbers := h.numbers
  rw [ordinals_eq, hout] at hids
  rw [numbers_eq, hout] at hnumbers
  refine ⟨h.typ, ?_, ?_, h.level⟩
  · rw [ordinals_eq]
    simpa [next, hout] using hids
  · rw [numbers_eq]
    simpa [next, hout] using hnumbers

theorem reset_next_top (h : c.Stands typ m [k]) : c.reset.next.Stands typ 1 [k + 1] := by
  have hr : c.reset.Stands typ 0 [k] := by
    refine ⟨h.typ, (ordinals_eq _).trans ((ordinals_eq c).symm.trans h.ids), ?_, h.level⟩
    rw [numbers_eq]
    simp [reset, h.outer_eq_nil]
  exact hr.next_top

theorem next_below (h : c.Stands typ m (outer ++ [k])) (ho : outer ≠ []) :
    c.next.Stands typ m (outer ++ [k + 1]) := by
  obtain ⟨i, is, rfl⟩ := List.exists_cons_of_ne_nil ho
  have hids := h.ids
  have hnumbers : c.numbers = (m :: is) ++ [k] := h.numbers
  rw [ordinals_eq, List.append_singleton_inj] at hids
  rw [numbers_eq, List.append_singleton_inj] at hnumbers
  refine ⟨h.typ, ?_, ?_, ?_⟩
  · rw [ordinals_eq, List.append_singleton_inj]
    exact ⟨hids.1, congrArg (· + 1) hids.2⟩
  · rw [numbers_eq]
    exact List.append_singleton_inj.2 ⟨hnumbers.1, congrArg (· + 1) hnumbers.2⟩
  · have hlevel : c.next.level = c.level := rfl
    simpa [hlevel] using h.level

theorem sub_next (h : c.Stands typ m path) (hp : path ≠ []) :
    c.sub.next.Stands typ m (path ++ [1]) := by
  obtain ⟨i, is, rfl⟩ := List.exists_cons_of_ne_nil hp
  refine ⟨h.typ, ?_, ?_, ?_⟩
  · rw [ordinals_eq, ← h.ids, ordinals_eq]
    simp [sub, next]
  · have hsub : c.sub.next.numbers = c.numbers ++ [1] := by
      rw [numbers_eq, numbers_eq]
      simp [sub, next]
    rw [hsub, h.numbers]
    rfl
  · have hlevel : c.level = some (is.length % levelCount) := h.level
    have hsub : c.sub.next.level = some (levelBelow c.level) := rfl
    rw [hsub, hlevel]
    simp [levelBelow]

end Stands

end Counter

/-! ## The rules of a walk -/

namespace Layout

/-- The number that a slot shows among the slots from `f` on. It starts again whenever the lead
changes. -/
inductive Shown (l : Layout) (f : SlotId) : SlotId → Nat → Prop
  | start : Shown l f f 1
  | next {p q : SlotId} {m : Nat} (s t : Slot) (hp : Shown l f p m) (hs : l.slot? p = some s)
    (hq : s.next = some q) (ht : l.slot? q = some t) :
    Shown l f q (if t.lead = s.lead then m + 1 else 1)

/-- The slot above a slot. -/
def parent? (l : Layout) (q : SlotId) : Option SlotId := (l.slot? q).bind Slot.parent

/-- The slot `a` has none above it, and is the slot `q` or lies above it. -/
structure Topmost (l : Layout) (q a : SlotId) : Prop where
  rises : Relation.ReflTransGen (fun p r => l.parent? p = some r) q a
  top : l.parent? a = none

namespace Topmost

variable {l : Layout} {q p a : SlotId} {s : Slot}

theorem refl (hs : l.slot? q = some s) (hp : s.parent = none) : l.Topmost q q :=
  ⟨.refl, by rw [parent?, hs, Option.bind_some, hp]⟩

theorem below (h : l.Topmost p a) (hs : l.slot? q = some s) (hp : s.parent = some p) :
    l.Topmost q a :=
  ⟨.head (by rw [parent?, hs, Option.bind_some, hp]) h.rises, h.top⟩

/-- Above a slot that lies below another one is what is above that one. -/
theorem above (h : l.Topmost q a) (hs : l.slot? q = some s) (hp : s.parent = some p) :
    l.Topmost p a := by
  have hq : l.parent? q = some p := by rw [parent?, hs, Option.bind_some, hp]
  refine ⟨?_, h.top⟩
  rcases h.rises.cases_head with rfl | ⟨r, hr, hrises⟩
  · have htop := h.top
    rw [hq] at htop
    cases htop
  · cases hq.symm.trans hr
    exact hrises

end Topmost

/-- A walk from `f` comes to the slot `q`, which lies below the slot `top` of the sequence that
starts at `f`, with a counter that stands at the id of `q` and shows `m` for `top`. -/
structure Counted (l : Layout) (f : SlotId) (typ : String) (q top : SlotId) (m : Nat) (c : Counter)
    (t u : Slot) : Prop where
  shown : l.Shown f top m
  slot : l.slot? q = some t
  above : l.slot? top = some u
  typ_eq : t.id.typ = typ
  stands : c.Stands typ m t.id.path
  path : u.id.path = t.id.path.take 1
  lead : u.lead = t.lead
  depth : t.parent = none ∧ top = q ∨ t.parent ≠ none ∧ 1 < t.id.path.length
  topmost : l.Topmost q top

theorem withLevel_none (rule : LabelRule) : rule.withLevel none = rule := by
  induction rule with
  | count scheme c => rfl
  | composed base separator current _ ih => simp [LabelRule.withLevel, ih]

variable {n : Numbering} {f q : SlotId} {s : Slot} {typ unled separator sep : String}
  {ρ : LabelRule}

/-- A slot at the top has one ordinal. -/
theorem Counted.path_eq {l : Layout} {q top : SlotId} {m : Nat} {c : Counter} {t u : Slot}
    (h : l.Counted f typ q top m c t u) (hp : t.parent = none) {outer : List Nat} {k : Nat}
    (hpath : t.id.path = outer ++ [k]) : outer = [] := by
  obtain ⟨-, rfl⟩ | ⟨hne, -⟩ := h.depth
  · cases h.slot.symm.trans h.above
    have := congrArg List.length h.path
    rw [hpath] at this
    simpa using this
  · exact (hne hp).elim

namespace Counted

variable {p top : SlotId} {m : Nat} {c : Counter} {s' t' u : Slot}

/-- At the top, the counter starts again if the lead changes. -/
theorem next_top (h : n.layout.Counted f typ p top m c s' u) (ho : n.layout.Ordered)
    (hq : s'.next = some q) (ht' : n.layout.slot? q = some t') (hnone : s'.parent = none) :
    n.layout.Counted f typ q q (if t'.lead = s'.lead then m + 1 else 1)
      (if t'.lead = s'.lead then c.next else c.reset.next) t' t' := by
  obtain ⟨t, outer, k, ht, hparent', hid₁, hid₂⟩ := ho.next_id p s' q h.slot hq
  cases ht'.symm.trans ht
  obtain rfl := h.path_eq hnone (congrArg LabelId.path hid₁)
  obtain ⟨-, rfl⟩ := h.depth.resolve_right fun hsome => hsome.1 hnone
  have hstands := h.stands
  rw [hid₁] at hstands
  refine ⟨h.shown.next s' t' h.slot hq ht', ht', ht', by rw [hid₂, h.typ_eq], ?_, by simp [hid₂],
    rfl, .inl ⟨hparent'.trans hnone, rfl⟩, .refl ht' (hparent'.trans hnone)⟩
  rw [hid₂]
  split
  · exact hstands.next_top
  · exact hstands.reset_next_top

/-- Below, all leads are the one of the slot above. -/
theorem next_below (h : n.layout.Counted f typ p top m c s' u) (ho : n.layout.Ordered)
    (hl : n.Led unled) (hq : s'.next = some q) (ht' : n.layout.slot? q = some t')
    (hsome : s'.parent ≠ none) :
    n.layout.Counted f typ q top m c.next t' u ∧ t'.lead = s'.lead := by
  obtain ⟨t, outer, k, ht, hparent', hid₁, hid₂⟩ := ho.next_id p s' q h.slot hq
  cases ht'.symm.trans ht
  have hstands := h.stands
  rw [hid₁] at hstands
  obtain ⟨x, hx⟩ := Option.ne_none_iff_exists'.1 hsome
  obtain ⟨y, hy, hlead⟩ := hl.slot p s' x h.slot hx
  obtain ⟨y', hy', hlead'⟩ := hl.slot q t' x ht' (hparent'.trans hx)
  cases hy.symm.trans hy'
  have hlen := (h.depth.resolve_left fun hnone => hsome hnone.1).2
  have houter : outer ≠ [] := by
    rintro rfl
    rw [congrArg LabelId.path hid₁] at hlen
    simp at hlen
  obtain ⟨i, is, rfl⟩ := List.exists_cons_of_ne_nil houter
  refine ⟨⟨h.shown, ht', h.above, by rw [hid₂, h.typ_eq], ?_, ?_,
    h.lead.trans (hlead.trans hlead'.symm), .inr ⟨hparent' ▸ hsome, by simp [hid₂]⟩,
    (h.topmost.above h.slot hx).below ht' (hparent'.trans hx)⟩, hlead'.trans hlead.symm⟩
  · rw [hid₂]
    exact hstands.next_below houter
  · rw [h.path, congrArg LabelId.path hid₁, congrArg LabelId.path hid₂]
    rfl

/-- The first slot below has the lead of the slot above. -/
theorem nested (h : n.layout.Counted f typ p top m c s' u) (ho : n.layout.Ordered)
    (hl : n.Led unled) {i : RangeId} {r : Range} (hi : s'.nested = some i)
    (hr : n.layout.range? i = some r) (hq : r.first = some q) (ht' : n.layout.slot? q = some t') :
    n.layout.Counted f typ q top m c.sub.next t' u ∧ r.typ = typ ∧ r.parent ≠ none := by
  obtain ⟨r', hr', hrp, -⟩ := ho.nested_parent p s' i h.slot hi
  cases hr.symm.trans hr'
  obtain ⟨t, ht, hid', hparent'⟩ := (ho.sequence i r hr).first q hq
  obtain ⟨y, hy, houter, htyp⟩ := (ho.sequence i r hr).outer p hrp
  cases ht'.symm.trans ht
  cases h.slot.symm.trans hy
  have hrt : r.typ = typ := htyp.symm.trans h.typ_eq
  obtain ⟨y', hy', hlead⟩ := hl.slot q t' p ht' (hparent'.trans hrp)
  cases h.slot.symm.trans hy'
  have hne : s'.id.path ≠ [] := by
    have := congrArg List.length h.stands.ids
    rw [Counter.ordinals_eq] at this
    intro h0
    simp [h0] at this
  refine ⟨⟨h.shown, ht', h.above, by rw [hid', hrt], ?_, ?_, h.lead.trans hlead.symm,
    .inr ⟨by simp [hparent', hrp], ?_⟩, h.topmost.below ht' (hparent'.trans hrp)⟩, hrt,
    by simp [hrp]⟩
  · rw [hid', houter]
    exact h.stands.sub_next hne
  · rw [h.path, hid', houter, List.take_append_of_le_length]
    exact List.length_pos_iff.2 hne
  · rw [hid', houter]
    simpa using List.length_pos_iff.2 hne

end Counted

/-- The rule that a walk comes to a slot with stands at the id of the slot. -/
theorem Counts.numbered (ho : n.layout.Ordered) (hp : n.layout.Plain typ) (hl : n.Led unled)
    (hs : n.layout.slot? f = some s) (hid : s.id = ⟨typ, [1]⟩) (hparent : s.parent = none)
    (h : n.layout.Counts f separator (.numbered typ (some 0)) none q sep ρ) :
    ∃ top m c t u, n.layout.Counted f typ q top m c t u ∧ ρ = .count .numbered c := by
  induction h with
  | start s' hs' =>
    cases hs.symm.trans hs'
    refine ⟨f, 1, (Counter.top typ (some 0)).next, s, s, ⟨.start, hs, hs, by rw [hid], ?_,
      by simp [hid], rfl, .inl ⟨hparent, rfl⟩, .refl hs hparent⟩, ?_⟩
    · rw [hid]
      exact .first typ
    · unfold advance
      split <;> rfl
  | @next p q sep ρ s' t' hp' hs' hq ht' ih =>
    obtain ⟨top, m, c, v, u, hc, rfl⟩ := ih
    cases hs'.symm.trans hc.slot
    by_cases hnone : s'.parent = none
    · refine ⟨q, _, _, t', t', hc.next_top ho hq ht' hnone, ?_⟩
      unfold advance
      split <;> rfl
    · obtain ⟨hcounted, hlead⟩ := hc.next_below ho hl hq ht' hnone
      refine ⟨top, m, _, t', u, hcounted, ?_⟩
      rw [advance, if_pos hlead]
      rfl
  | @nested p q sep ρ s' t' i r hp' hs' hi hr hq ht' ih =>
    obtain ⟨top, m, c, v, u, hc, rfl⟩ := ih
    cases hs'.symm.trans hc.slot
    obtain ⟨hcounted, hrt, hrp⟩ := hc.nested ho hl hi hr hq ht'
    refine ⟨top, m, _, t', u, hcounted, ?_⟩
    have hbelow : r.ruleBelow ((LabelRule.count .numbered c).withLevel s'.pinned).sub =
        .count .numbered c.sub := by
      rw [hp.pinned p s' hs' hc.typ_eq, withLevel_none]
      unfold Range.ruleBelow
      rw [hp.rule i r hr hrt hrp, hp.weight i r hr hrt]
      exact withLevel_none _
    rw [hbelow, advance]
    split <;> rfl

/-- Slots without leads show their ordinals. -/
theorem Shown.id_eq {m : Nat} (h : n.layout.Shown f q m) (ho : n.layout.Ordered) (hl : n.Led typ)
    (hs : n.layout.slot? f = some s) (hid : s.id = ⟨typ, [1]⟩) :
    ∃ t, n.layout.slot? q = some t ∧ t.id = ⟨typ, [m]⟩ := by
  induction h with
  | start => exact ⟨s, hs, hid⟩
  | @next p q m s' t' hp' hs' hq ht' ih =>
    obtain ⟨v, hv, hid'⟩ := ih
    cases hs'.symm.trans hv
    obtain ⟨t, outer, k, ht, -, hid₁, hid₂⟩ := ho.next_id _ s' _ hs' hq
    cases ht'.symm.trans ht
    have hpath : outer ++ [k] = [] ++ [m] :=
      (congrArg LabelId.path hid₁).symm.trans (congrArg LabelId.path hid')
    obtain ⟨rfl, rfl⟩ := List.append_singleton_inj.1 hpath
    have htyp : s'.id.typ = typ := by rw [hid']
    rw [htyp] at hid₂
    refine ⟨t', ht', ?_⟩
    rw [hl.unled_slot q t' ht' (by rw [hid₂]), hl.unled_slot p s' hs' htyp, if_pos rfl, hid₂]
    rfl

/-- The rule at a slot of a type without leads shows the id of the slot. -/
theorem Counts.numbered_of_unled (ho : n.layout.Ordered) (hp : n.layout.Plain typ)
    (hl : n.Led typ) (hs : n.layout.slot? f = some s) (hid : s.id = ⟨typ, [1]⟩)
    (hparent : s.parent = none)
    (h : n.layout.Counts f separator (.numbered typ (some 0)) none q sep ρ) :
    ∃ t c, n.layout.slot? q = some t ∧ t.id.typ = typ ∧ t.lead = none ∧ ρ = .count .numbered c ∧
      c.numbers = t.id.path ∧ c.level = some ((t.id.path.length - 1) % Counter.levelCount) := by
  obtain ⟨top, m, c, t, u, hc, rfl⟩ := h.numbered ho hp hl hs hid hparent
  obtain ⟨v, hv, hid'⟩ := hc.shown.id_eq ho hl hs hid
  cases hc.above.symm.trans hv
  refine ⟨t, c, hc.slot, hc.typ_eq, hl.unled_slot q t hc.slot hc.typ_eq, rfl, ?_,
    hc.stands.level⟩
  have hpath := hc.path
  rw [hid'] at hpath
  rw [hc.stands.numbers]
  cases hq : t.id.path with
  | nil => simp [hq] at hpath
  | cons i is =>
    rw [hq] at hpath
    simp only [List.take_succ_cons, List.take_zero, List.cons.injEq, and_true] at hpath
    rw [hpath, List.tail_cons]

end Layout

/-! ## Numbers with points between them -/

section Separators

variable {separator : String} {σ : Char} {xs : List Nat}

theorem notMem_toDigits (hσ : σ.isDigit = false) (k : Nat) : σ ∉ Nat.toDigits 10 k := fun h => by
  have := Nat.isDigit_of_mem_toDigits (by decide) (by decide) h
  simp [hσ] at this

theorem toDigits_injective {a b : Nat} (h : Nat.toDigits 10 a = Nat.toDigits 10 b) : a = b := by
  rw [← @Nat.ofDigitChars_ten_toDigits a, h, Nat.ofDigitChars_ten_toDigits]

theorem toList_intercalate_toString (hs : separator.toList = [σ]) (xs : List Nat) :
    (separator.intercalate (xs.map toString)).toList =
      [σ].intercalate (xs.map (Nat.toDigits 10)) := by
  have hdigits : String.toList ∘ (toString : Nat → String) = Nat.toDigits 10 := by
    funext k
    simp
  rw [String.toList_intercalate, List.map_map, hdigits, hs]

/-- A separator that is no digit cuts numbers apart again. -/
theorem splitOn_intercalate_toString (hs : separator.toList = [σ]) (hσ : σ.isDigit = false)
    (hx : xs ≠ []) :
    (separator.intercalate (xs.map toString)).toList.splitOn σ = xs.map (Nat.toDigits 10) := by
  rw [toList_intercalate_toString hs, List.splitOn_intercalate]
  · intro l hl
    obtain ⟨k, -, rfl⟩ := List.mem_map.1 hl
    exact notMem_toDigits hσ k
  · simpa using hx

end Separators

/-- Numbers with points between them. -/
def dotted (numbers : List Nat) : String := ".".intercalate (numbers.map toString)

theorem toList_dotted (xs : List Nat) :
    (dotted xs).toList = ['.'].intercalate (xs.map (Nat.toDigits 10)) :=
  toList_intercalate_toString rfl xs

/-- The numbers can be read back. -/
theorem dotted_injective {xs ys : List Nat} (hx : xs ≠ []) (hy : ys ≠ [])
    (h : dotted xs = dotted ys) : xs = ys := by
  have hsplit : ∀ zs : List Nat, zs ≠ [] →
      (dotted zs).toList.splitOn '.' = zs.map (Nat.toDigits 10) := fun zs hz =>
    splitOn_intercalate_toString rfl (by decide) hz
  have hmap : xs.map (Nat.toDigits 10) = ys.map (Nat.toDigits 10) := by
    rw [← hsplit xs hx, h, hsplit ys hy]
  exact (List.map_inj_right fun _ _ => toDigits_injective).1 hmap

theorem dotted_ne_empty {xs : List Nat} (hx : xs ≠ []) : dotted xs ≠ "" := by
  intro h
  obtain ⟨k, ks, rfl⟩ := List.exists_cons_of_ne_nil hx
  have hlist := congrArg String.toList h
  rw [toList_dotted] at hlist
  have hk := Nat.toDigits_ne_nil (n := k) (b := 10)
  cases ks <;> simp_all [List.intercalate_cons_cons]

theorem mem_dotted {xs : List Nat} {c : Char} (hc : c ∈ (dotted xs).toList) :
    c = '.' ∨ c.isDigit := by
  rw [toList_dotted] at hc
  induction xs with
  | nil => simp at hc
  | cons k ks ih =>
    have hk : ∀ d ∈ Nat.toDigits 10 k, d.isDigit := fun d hd =>
      Nat.isDigit_of_mem_toDigits (by decide) (by decide) hd
    cases ks with
    | nil =>
      exact .inr (hk c (by simpa using hc))
    | cons j js =>
      simp only [List.map_cons, List.intercalate_cons_cons, List.mem_append,
        List.mem_singleton] at hc ih
      rcases hc with (hc | hc) | hc
      · exact .inr (hk c hc)
      · exact .inl hc
      · exact ih hc

end Folio
