import Folio.Proofs.Numbering.Runs

/-!
# Sequences of slots

`Layout.slotsOf` lists the slots of a range. The list only grows at its end, unless a slot is linked
anew that has another one behind it. That happens if a slot is assigned in a range that was itself
made for a slot: the range that the slot belongs to may have gone on meanwhile, and all behind the
slot is cut off (`Numbering.not_forall_slotsOf_prefix`).

As long as slots are assigned in ranges that grow, nothing is cut off. `Layout.Steady` is the
invariant that carries this: every slot is listed in its range, and the latest slot of a range that
grows is the last one in its list. In a steady layout two slots of a tree share an id only if two
ranges were opened below one slot (`Layout.Steady.distinctIds_iff`).
-/

namespace Folio

/-- A range as it is made: without slots, or with the one that it hands out. -/
structure Range.Fresh (r : Range) : Prop where
  growing : r.stage = .growing → r.current = none ∧ r.first = none
  handle : r.stage ≠ .growing → r.current ≠ none

namespace Layout

/-- The slot behind a slot. -/
def next? (l : Layout) (q : SlotId) : Option SlotId := (l.slot? q).bind Slot.next

/-- A slot is reached from another one of its sequence. -/
abbrev Follows (l : Layout) : SlotId → SlotId → Prop :=
  Relation.ReflTransGen fun p q => l.next? p = some q

/-- No sequence of `l` loses or moves a slot in `l'`. -/
structure Extends (l l' : Layout) : Prop where
  size : l.slots.size ≤ l'.slots.size
  first : ∀ i r f, l.range? i = some r → r.first = some f →
    ∃ r', l'.range? i = some r' ∧ r'.first = some f
  next : ∀ p q, l.next? p = some q → l'.next? p = some q

variable {l l' : Layout} {p q f : SlotId} {s t : Slot} {i range : RangeId} {r : Range}

theorem next?_eq_some : l.next? p = some q ↔ ∃ s, l.slot? p = some s ∧ s.next = some q :=
  Option.bind_eq_some_iff

/-! ## Lists of slots -/

@[simp]
theorem chain_none (l : Layout) (m : Nat) : l.chain m none = [] := by
  cases m <;> rfl

theorem chain_prefix (h : ∀ p q, l.next? p = some q → l'.next? p = some q) {m n : Nat}
    (hmn : m ≤ n) (start : Option SlotId) : l.chain m start <+: l'.chain n start := by
  induction m generalizing n start with
  | zero => cases start <;> exact List.nil_prefix
  | succ m ih =>
    cases start with
    | none => exact List.nil_prefix
    | some p =>
      obtain ⟨n, rfl⟩ : ∃ k, n = k + 1 := ⟨n - 1, by omega⟩
      refine List.cons_prefix_cons.2 ⟨rfl, ?_⟩
      change l.chain m (l.next? p) <+: l'.chain n (l'.next? p)
      cases hp : l.next? p with
      | none => simp
      | some q =>
        rw [h p q hp]
        exact ih (by omega) (some q)

namespace Extends

theorem refl (l : Layout) : l.Extends l :=
  ⟨Nat.le_refl _, fun _ r _ hr hf => ⟨r, hr, hf⟩, fun _ _ hq => hq⟩

theorem trans {l'' : Layout} (h : l.Extends l') (h' : l'.Extends l'') : l.Extends l'' where
  size := Nat.le_trans h.size h'.size
  first i r f hr hf := by
    obtain ⟨r', hr', hf'⟩ := h.first i r f hr hf
    exact h'.first i r' f hr' hf'
  next p q hq := h'.next p q (h.next p q hq)

theorem slotsOf_prefix (h : l.Extends l') (i : RangeId) : l.slotsOf i <+: l'.slotsOf i := by
  unfold slotsOf
  cases hf : (l.range? i).bind Range.first with
  | none => simp
  | some f =>
    obtain ⟨r, hr, hfirst⟩ := Option.bind_eq_some_iff.1 hf
    obtain ⟨r', hr', hfirst'⟩ := h.first i r f hr hfirst
    have hf' : (l'.range? i).bind Range.first = some f := by rw [hr', Option.bind_some, hfirst']
    rw [hf']
    exact chain_prefix h.next h.size (some f)

theorem follows (h : l.Extends l') (hf : l.Follows p q) : l'.Follows p q :=
  Relation.ReflTransGen.mono (fun p q => h.next p q) _ _ hf

/-- A claim cuts nothing off if there is nothing behind the latest slot of the range. -/
theorem claimed {opened : Bool} {lead : Option SlotId} {pinned : Option Nat}
    (hc : l.Claimed l' range r opened lead pinned)
    (hnext : ∀ q s, r.current = some q → l.slot? q = some s → s.next = none)
    (hfirst : r.current = none → r.first = none) : l.Extends l' where
  size := by
    have := hc.size
    omega
  first i u f hu hf := by
    by_cases hi : i = range
    · subst hi
      cases hc.before.symm.trans hu
      refine ⟨_, hc.range_self, ?_⟩
      cases hcur : r.current with
      | none => simp [hfirst hcur] at hf
      | some c => simpa [Range.grown, hcur] using hf
    · exact ⟨u, (hc.range_other hi).trans hu, hf⟩
  next p q hq := by
    obtain ⟨s, hs, hn⟩ := next?_eq_some.1 hq
    refine next?_eq_some.2 ⟨_, hc.slot_old hs, ?_⟩
    have hne : r.current ≠ some p := by
      intro hcur
      simp [hnext p s hcur hs] at hn
    rw [Slot.linked_next, if_neg hne, hn]

end Extends

theorem mem_chain_le (h : l.Sound) {m : Nat} (hq : q ∈ l.chain m (some p)) :
    p.index ≤ q.index := by
  induction m generalizing p with
  | zero => simp [chain] at hq
  | succ m ih =>
    rcases List.mem_cons.1 hq with rfl | hq
    · exact Nat.le_refl _
    · change q ∈ l.chain m (l.next? p) at hq
      cases hp : l.next? p with
      | none =>
        simp [hp] at hq
      | some p' =>
        rw [hp] at hq
        obtain ⟨s, hs, hn⟩ := next?_eq_some.1 hp
        have hlt := (h.next_gt p s p' hs hn).1
        have hle := ih hq
        omega

theorem nodup_chain (h : l.Sound) (m : Nat) (start : Option SlotId) :
    (l.chain m start).Nodup := by
  induction m generalizing start with
  | zero => cases start <;> exact List.nodup_nil
  | succ m ih =>
    cases start with
    | none => exact List.nodup_nil
    | some p =>
      refine List.nodup_cons.2 ⟨fun hmem => ?_, ih _⟩
      change p ∈ l.chain m (l.next? p) at hmem
      cases hp : l.next? p with
      | none =>
        simp [hp] at hmem
      | some p' =>
        rw [hp] at hmem
        obtain ⟨s, hs, hn⟩ := next?_eq_some.1 hp
        have hlt := (h.next_gt p s p' hs hn).1
        have hle := mem_chain_le h hmem
        omega

/-- Slots are listed once. -/
theorem nodup_slotsOf (h : l.Sound) (i : RangeId) : (l.slotsOf i).Nodup := nodup_chain h _ _

theorem Follows.mem_chain (hf : l.Follows p q) (h : l.Sound) (hq : q.index < l.slots.size) {m : Nat}
    (hm : l.slots.size ≤ m + p.index) : q ∈ l.chain m (some p) := by
  induction hf using Relation.ReflTransGen.head_induction_on generalizing m with
  | refl =>
    obtain ⟨m, rfl⟩ : ∃ k, m = k + 1 := ⟨m - 1, by omega⟩
    exact List.mem_cons_self
  | @head p p' hp hf ih =>
    obtain ⟨s, hs, hn⟩ := next?_eq_some.1 hp
    have hlt := h.next_gt p s p' hs hn
    obtain ⟨m, rfl⟩ : ∃ k, m = k + 1 := ⟨m - 1, by omega⟩
    refine List.mem_cons_of_mem p ?_
    change q ∈ l.chain m (l.next? p)
    rw [hp]
    exact ih (by omega)

theorem mem_slotsOf (h : l.Sound) (hr : l.range? i = some r) (hfirst : r.first = some f)
    (hf : l.Follows f q) (hq : q.index < l.slots.size) : q ∈ l.slotsOf i := by
  unfold slotsOf
  rw [hr, Option.bind_some, hfirst]
  exact hf.mem_chain h hq (Nat.le_add_right _ _)

/-- Of two slots behind one, one comes behind the other. -/
theorem follows_total {q' : SlotId} (h : l.Follows p q) (h' : l.Follows p q') :
    l.Follows q q' ∨ l.Follows q' q :=
  Relation.ReflTransGen.total_of_right_unique
    (fun _ _ _ hb hc => Option.some.inj (hb.symm.trans hc)) h h'

/-! ## Ids along a sequence -/

/-- Along a sequence, the last ordinal counts the steps. -/
theorem Ordered.follows_id (h : l.Ordered) (hf : l.Follows p q) (hs : l.slot? p = some s)
    {outer : List Nat} {k : Nat} (hp : s.id.path = outer ++ [k]) :
    ∃ t m, l.slot? q = some t ∧ t.id.typ = s.id.typ ∧ t.id.path = outer ++ [k + m] ∧
      (m = 0 → q = p) := by
  induction hf with
  | refl => exact ⟨s, 0, hs, rfl, hp, fun _ => rfl⟩
  | @tail q q' _ hn ih =>
    obtain ⟨t, m, ht, htyp, hpath, -⟩ := ih
    obtain ⟨t', ht', hnext⟩ := next?_eq_some.1 hn
    cases ht.symm.trans ht'
    obtain ⟨u, outer', k', hu, -, hid, hid'⟩ := h.next_id q t q' ht hnext
    have heq : outer' ++ [k'] = outer ++ [k + m] := (congrArg LabelId.path hid).symm.trans hpath
    obtain ⟨rfl, rfl⟩ := List.append_singleton_inj.1 heq
    exact ⟨u, m + 1, hu, by rw [hid', htyp], by rw [hid']; rfl, by omega⟩

/-- Slots of one sequence have different ordinals. -/
theorem Ordered.eq_of_follows (h : l.Ordered) {q' : SlotId} {t' : Slot} (hf : l.Follows f q)
    (hf' : l.Follows f q') (ht : l.slot? q = some t) (ht' : l.slot? q' = some t')
    {outer : List Nat} {k : Nat} (hk : t.id.path = outer ++ [k]) (hpath : t.id.path = t'.id.path) :
    q = q' := by
  -- One of the two comes behind the other, by no step.
  have hstep : ∀ {a b : SlotId} {u v : Slot}, l.Follows a b → l.slot? a = some u →
      l.slot? b = some v → u.id.path = outer ++ [k] → u.id.path = v.id.path → b = a := by
    intro a b u v hab hu hv hk hpath
    obtain ⟨w, m, hw, -, hm, hzero⟩ := h.follows_id hab hu hk
    cases hv.symm.trans hw
    have heq : outer ++ [k] = outer ++ [k + m] := hk.symm.trans (hpath.trans hm)
    have := (List.append_singleton_inj.1 heq).2
    exact hzero (by omega)
  rcases follows_total hf hf' with hqq | hqq
  · exact (hstep hqq ht ht' hk hpath).symm
  · exact hstep hqq ht' ht (hpath ▸ hk) hpath.symm

/-! ## Steady layouts -/

/-- Every slot is listed in its range, which grows, and the latest slot of a range that grows has
nothing behind it. A range that does not grow was made for a slot. -/
structure Steady (l : Layout) : Prop extends l.Ordered where
  home : ∀ q s, l.slot? q = some s → ∃ r f, l.range? s.range = some r ∧ r.stage = .growing ∧
    r.parent = s.parent ∧ r.first = some f ∧ l.Follows f q
  latest : ∀ i r q, l.range? i = some r → r.stage = .growing → r.current = some q →
    ∃ s, l.slot? q = some s ∧ s.range = i ∧ s.next = none
  blank : ∀ i r, l.range? i = some r → r.stage = .growing → r.current = none → r.first = none
  handle : ∀ i r, l.range? i = some r → r.stage ≠ .growing → r.current ≠ none

/-- `l'` comes from `l` without a claim. -/
structure Reworked (l l' : Layout) : Prop where
  size : l'.slots.size = l.slots.size
  slot : ∀ q s, l.slot? q = some s → ∃ label, l'.slot? q = some { s with label }
  kept : ∀ i r, l.range? i = some r → ∃ r', l'.range? i = some r' ∧ r.SamePlace r' ∧
    (r'.stage = .growing ↔ r.stage = .growing)
  added : ∀ i r', l'.range? i = some r' → l.range? i = none → r'.Fresh

namespace Reworked

theorem modify (l : Layout) (range : RangeId) (f : Range → Range)
    (hf : ∀ r, l.range? range = some r → r.SamePlace (f r) ∧
      ((f r).stage = .growing ↔ r.stage = .growing)) :
    l.Reworked { l with ranges := l.ranges.modify range.index f } where
  size := rfl
  slot _ s hs := ⟨s.label, hs⟩
  kept i r hr := by
    rw [range?_modify, hr]
    split
    next hi => exact ⟨f r, rfl, hf r (hi ▸ hr)⟩
    · exact ⟨r, rfl, ⟨rfl, rfl, rfl⟩, Iff.rfl⟩
  added i r' hr' hr := by simp [range?_modify, hr] at hr'

theorem addRange (l : Layout) {new : Range} (h : new.Fresh) :
    l.Reworked (l.addRange new).2 where
  size := rfl
  slot _ s hs := ⟨s.label, hs⟩
  kept i r hr := by
    exact ⟨r, range?_addRange_of_some hr new, ⟨rfl, rfl, rfl⟩, Iff.rfl⟩
  added i r' hr' hr := by
    rw [range?_addRange, hr] at hr'
    split at hr' <;> cases hr'
    exact h

theorem relabeled (h : l.Relabeled l') : l.Reworked l' where
  size := h.size
  slot := h.slot
  kept i r hr := ⟨r, (h.range? i).trans hr, ⟨rfl, rfl, rfl⟩, Iff.rfl⟩
  added i r' hr' hr := by cases hr.symm.trans ((h.range? i).symm.trans hr')

theorem opened {r' new : Range} (h : l.Opened l' range r' new) (hr : l.range? range = some r)
    (hsame : r.SamePlace r') (hstage : r'.stage = r.stage)
    (hnew : new.Fresh) : l.Reworked l' where
  size := h.size
  slot q s hs := ⟨s.label, (h.slot q).trans hs⟩
  kept i u hu := by
    rw [h.range, hu, if_neg (by rintro rfl; simp at hu)]
    split
    next hi =>
      subst hi
      cases hr.symm.trans hu
      exact ⟨r', rfl, hsame, by rw [hstage]⟩
    · exact ⟨u, rfl, ⟨rfl, rfl, rfl⟩, Iff.rfl⟩
  added i u' hu' hu := by
    rw [h.range, hu] at hu'
    split at hu'
    · cases hu'
      exact hnew
    · simp at hu'

theorem extend (h : l.Reworked l') : l.Extends l' where
  size := Nat.le_of_eq h.size.symm
  first i r f hr hf := by
    obtain ⟨r', hr', hsame, -⟩ := h.kept i r hr
    exact ⟨r', hr', hsame.2.1.trans hf⟩
  next p q hq := by
    obtain ⟨s, hs, hn⟩ := next?_eq_some.1 hq
    obtain ⟨label, hs'⟩ := h.slot p s hs
    exact next?_eq_some.2 ⟨_, hs', hn⟩

theorem steady (h : l.Reworked l') (hl : l.Steady) (hl' : l'.Ordered) : l'.Steady where
  toOrdered := hl'
  home q t ht := by
    obtain ⟨s, hs⟩ := slot?_isSome (h.size ▸ slot?_lt ht)
    obtain ⟨label, hs'⟩ := h.slot q s hs
    cases ht.symm.trans hs'
    obtain ⟨r, f, hr, hg, hparent, hf, hfollows⟩ := hl.home q s hs
    obtain ⟨r', hr', hsame, hg'⟩ := h.kept _ r hr
    exact ⟨r', f, hr', hg'.2 hg, hsame.1.trans hparent, hsame.2.1.trans hf,
      h.extend.follows hfollows⟩
  latest i r' q hr' hg hq := by
    cases hr : l.range? i with
    | none => simp [((h.added i r' hr' hr).growing hg).1] at hq
    | some r =>
      obtain ⟨u, hu, hsame, hg'⟩ := h.kept i r hr
      cases hr'.symm.trans hu
      obtain ⟨s, hs, hi, hn⟩ := hl.latest i r q hr (hg'.1 hg) (hsame.2.2 ▸ hq)
      obtain ⟨label, hs'⟩ := h.slot q s hs
      exact ⟨_, hs', hi, hn⟩
  blank i r' hr' hg hc := by
    cases hr : l.range? i with
    | none => exact ((h.added i r' hr' hr).growing hg).2
    | some r =>
      obtain ⟨u, hu, hsame, hg'⟩ := h.kept i r hr
      cases hr'.symm.trans hu
      rw [hsame.2.1]
      exact hl.blank i r hr (hg'.1 hg) (hsame.2.2 ▸ hc)
  handle i r' hr' hg := by
    cases hr : l.range? i with
    | none => exact (h.added i r' hr' hr).handle hg
    | some r =>
      obtain ⟨u, hu, hsame, hg'⟩ := h.kept i r hr
      cases hr'.symm.trans hu
      rw [hsame.2.2]
      exact hl.handle i r hr fun hrg => hg (hg'.2 hrg)

end Reworked

namespace Steady

theorem empty : ({} : Layout).Steady where
  toOrdered := .empty
  home q s hs := by simp [slot?] at hs
  latest i r q hr := by simp [range?] at hr
  blank i r hr := by simp [range?] at hr
  handle i r hr := by simp [range?] at hr

variable {opened : Bool} {lead : Option SlotId} {pinned : Option Nat}

theorem extends_claimed (h : l.Steady) (hc : l.Claimed l' range r opened lead pinned)
    (hg : r.stage = .growing) : l.Extends l' := by
  refine .claimed hc (fun q s hcur hs => ?_) (h.blank range r hc.before hg)
  obtain ⟨s', hs', -, hn⟩ := h.latest range r q hc.before hg hcur
  cases hs.symm.trans hs'
  exact hn

theorem claimed (h : l.Steady) (hc : l.Claimed l' range r opened lead pinned)
    (hg : r.stage = .growing) : l'.Steady where
  toOrdered := h.toOrdered.claimed hc
  home q t ht := by
    have hext := h.extends_claimed hc hg
    rcases hc.slot_cases ht with ⟨rfl, rfl⟩ | ⟨s, hs, rfl⟩
    · cases hcur : r.current with
      | none => exact ⟨_, l.freshSlot, hc.range_self, hg, rfl, by simp [Range.grown, hcur], .refl⟩
      | some c =>
        obtain ⟨s, hs, hsr, -⟩ := h.latest range r c hc.before hg hcur
        obtain ⟨u, f, hu, -, -, hf, hfollows⟩ := h.home c s hs
        cases hc.before.symm.trans (hsr ▸ hu)
        have hlink : l'.next? c = some l.freshSlot :=
          next?_eq_some.2 ⟨_, hc.slot_old hs, by simp [Slot.linked_next, hcur]⟩
        exact ⟨_, f, hc.range_self, hg, rfl, by simpa [Range.grown, hcur] using hf,
          (hext.follows hfollows).tail hlink⟩
    · obtain ⟨u, f, hu, hug, hparent, hf, hfollows⟩ := h.home q s hs
      rw [Slot.linked_range, Slot.linked_parent]
      obtain ⟨u', hu', hf'⟩ := hext.first s.range u f hu hf
      refine ⟨u', f, hu', ?_, ?_, hf', hext.follows hfollows⟩ <;>
        rcases hc.range_cases hu' with ⟨hi, hp, -⟩ | ⟨-, hold⟩
      · rw [hi] at hu'
        cases hc.range_self.symm.trans hu'
        exact hg
      · cases hu.symm.trans hold
        exact hug
      · cases hc.before.symm.trans (hi ▸ hu)
        exact hp.trans hparent
      · cases hu.symm.trans hold
        exact hparent
  latest i u q hu hug hq := by
    by_cases hi : i = range
    · subst hi
      cases hc.range_self.symm.trans hu
      cases hq
      exact ⟨_, hc.slot_fresh, rfl, rfl⟩
    · have hu' : l.range? i = some u := (hc.range_other hi).symm.trans hu
      obtain ⟨s, hs, hsi, hn⟩ := h.latest i u q hu' hug hq
      refine ⟨_, hc.slot_old hs, by rw [Slot.linked_range, hsi], ?_⟩
      have hne : r.current ≠ some q := by
        intro hcur
        obtain ⟨s', hs', hsr, -⟩ := h.latest range r q hc.before hg hcur
        cases hs.symm.trans hs'
        exact hi (hsi.symm.trans hsr)
      rw [Slot.linked_next, if_neg hne, hn]
  blank i u hu hug hcur := by
    by_cases hi : i = range
    · subst hi
      cases hc.range_self.symm.trans hu
      simp [Range.grown] at hcur
    · exact h.blank i u ((hc.range_other hi).symm.trans hu) hug hcur
  handle i u hu hug := by
    by_cases hi : i = range
    · subst hi
      cases hc.range_self.symm.trans hu
      exact absurd hg hug
    · exact h.handle i u ((hc.range_other hi).symm.trans hu) hug

/-- A slot stands in its range, at an ordinal that starts from 1. -/
theorem place (h : l.Steady) (hs : l.slot? q = some s) : ∃ r f k, l.range? s.range = some r ∧
    r.stage = .growing ∧ r.parent = s.parent ∧ r.first = some f ∧ l.Follows f q ∧
      s.id = ⟨r.typ, r.ordinals.outer ++ [k + 1]⟩ := by
  obtain ⟨r, f, hr, hg, hparent, hf, hfollows⟩ := h.home q s hs
  obtain ⟨t, ht, hid, -⟩ := (h.sequence s.range r hr).first f hf
  obtain ⟨s', m, hs', htyp, hpath, -⟩ :=
    h.toOrdered.follows_id hfollows ht (congrArg LabelId.path hid)
  cases hs.symm.trans hs'
  have hid' : s.id = ⟨s.id.typ, s.id.path⟩ := rfl
  refine ⟨r, f, m, hr, hg, hparent, hf, hfollows, ?_⟩
  rw [hid', htyp, hid, hpath, Nat.add_comm 1 m]

/-- Slots of one range have different ids. -/
theorem eq_of_range_eq (h : l.Steady) {q' : SlotId} {s' : Slot} (hs : l.slot? q = some s)
    (hs' : l.slot? q' = some s') (hr : s.range = s'.range) (hid : s.id = s'.id) : q = q' := by
  obtain ⟨r, f, k, hrange, -, -, hf, hfollows, hk⟩ := h.place hs
  obtain ⟨r', f', k', hrange', -, -, hf', hfollows', -⟩ := h.place hs'
  cases (hr ▸ hrange).symm.trans hrange'
  cases hf.symm.trans hf'
  exact h.toOrdered.eq_of_follows hfollows hfollows' hs hs' (congrArg LabelId.path hk)
    (congrArg LabelId.path hid)

/-- The ordinals of a slot are those of the slot above and one more. -/
theorem path_eq (h : l.Steady) (hs : l.slot? q = some s) : ∃ outer k, s.id.path = outer ++ [k + 1] ∧
    (s.parent = none → outer = []) ∧
    ∀ p, s.parent = some p → ∃ t, l.slot? p = some t ∧ outer = t.id.path ∧ t.id.typ = s.id.typ := by
  obtain ⟨r, f, k, hr, -, hparent, -, -, hid⟩ := h.place hs
  have hseq := h.sequence s.range r hr
  refine ⟨r.ordinals.outer, k, by rw [hid], fun hp => hseq.top (hparent.trans hp), fun p hp => ?_⟩
  obtain ⟨t, ht, houter, htyp⟩ := hseq.outer p (hparent.trans hp)
  exact ⟨t, ht, houter, by rw [htyp, hid]⟩

end Steady

/-! ## Ids in a tree -/

/-- A slot belongs to a range at the top, or lies below a slot that does. -/
inductive InTree (l : Layout) (root : RangeId) : SlotId → Prop
  | top {q : SlotId} (s : Slot) (hs : l.slot? q = some s) (hp : s.parent = none)
    (hr : s.range = root) : InTree l root q
  | under {p q : SlotId} (s : Slot) (hs : l.slot? q = some s) (hp : s.parent = some p)
    (h : InTree l root p) : InTree l root q

/-- No two slots of a tree have the same id. -/
def DistinctIds (l : Layout) (root : RangeId) : Prop :=
  ∀ p q s t, l.InTree root p → l.InTree root q → l.slot? p = some s → l.slot? q = some t →
    s.id = t.id → p = q

/-- Below each slot of a tree there is one range with slots at most. -/
def SingleBelow (l : Layout) (root : RangeId) : Prop :=
  ∀ p i j r u, l.InTree root p → l.range? i = some r → l.range? j = some u →
    r.stage = .growing → u.stage = .growing → r.parent = some p → u.parent = some p →
      r.first.isSome → u.first.isSome → i = j

namespace Steady

theorem distinctIds (h : l.Steady) {root : RangeId} (hb : l.SingleBelow root) :
    l.DistinctIds root := by
  intro p q s t hp hq
  induction hp generalizing q s t with
  | top u hu hup hur =>
    intro hs ht hid
    cases hs.symm.trans hu
    obtain ⟨outer, k, hpath, htop, -⟩ := h.path_eq hs
    cases hq with
    | top v hv hvp hvr =>
      cases ht.symm.trans hv
      exact h.eq_of_range_eq hs ht (hur.trans hvr.symm) hid
    | under v hv hvp _ =>
      -- A slot below another one has more ordinals.
      cases ht.symm.trans hv
      obtain ⟨outer', k', hpath', -, habove⟩ := h.path_eq ht
      obtain ⟨w, hw, rfl, -⟩ := habove _ hvp
      obtain ⟨outer'', k'', hpath'', -⟩ := h.path_eq hw
      have hlen := congrArg (fun id => id.path.length) hid
      simp [hpath, htop hup, hpath', hpath''] at hlen
  | under u hu hup hpa ih =>
    intro hs ht hid
    cases hs.symm.trans hu
    obtain ⟨r, f, k, hr, hg, hparent, hf, -, hk⟩ := h.place hs
    obtain ⟨outer, m, hpath, -, habove⟩ := h.path_eq hs
    obtain ⟨w, hw, rfl, hwt⟩ := habove _ hup
    cases hq with
    | top v hv hvp hvr =>
      cases ht.symm.trans hv
      obtain ⟨outer', k', hpath', htop, -⟩ := h.path_eq ht
      obtain ⟨outer'', k'', hpath'', -⟩ := h.path_eq hw
      have hlen := congrArg (fun id => id.path.length) hid
      simp [hpath, hpath', htop hvp, hpath''] at hlen
    | under v hv hvp hqa =>
      cases ht.symm.trans hv
      obtain ⟨r', f', k', hr', hg', hparent', hf', -, hk'⟩ := h.place ht
      obtain ⟨outer', m', hpath', -, habove'⟩ := h.path_eq ht
      obtain ⟨w', hw', rfl, hwt'⟩ := habove' _ hvp
      -- The slots above have the same id, so they are one slot, and there is one range below it.
      have hwid : w.id = w'.id := by
        have hpaths := (congrArg LabelId.path hid)
        rw [hpath, hpath', List.append_singleton_inj] at hpaths
        have htyps : w.id.typ = w'.id.typ := by rw [hwt, hwt', hid]
        have heta : w.id = ⟨w.id.typ, w.id.path⟩ := rfl
        rw [heta, htyps, hpaths.1]
      obtain rfl := ih _ _ _ hqa hw hw' hwid
      have hrange : u.range = t.range := hb _ _ _ r r' hqa hr hr' hg hg' (hparent.trans hup)
        (hparent'.trans hvp) (by rw [hf]; rfl) (by rw [hf']; rfl)
      exact h.eq_of_range_eq hs ht hrange hid

/-- Ids tell the slots of a tree apart exactly if no two ranges with slots lie below one slot. -/
theorem distinctIds_iff (h : l.Steady) (root : RangeId) :
    l.DistinctIds root ↔ l.SingleBelow root := by
  refine ⟨fun hd p i j r u hp hr hu _ _ hrp hup hrf huf => ?_, h.distinctIds⟩
  -- The first slots of two ranges below one slot have the same id.
  obtain ⟨f, hf⟩ := Option.isSome_iff_exists.1 hrf
  obtain ⟨g, hg⟩ := Option.isSome_iff_exists.1 huf
  obtain ⟨s, hs, hsid, hsp⟩ := (h.sequence i r hr).first f hf
  obtain ⟨t, ht, htid, htp⟩ := (h.sequence j u hu).first g hg
  obtain ⟨v, hv, hro, hrt⟩ := (h.sequence i r hr).outer p hrp
  obtain ⟨v', hv', huo, hut⟩ := (h.sequence j u hu).outer p hup
  cases hv.symm.trans hv'
  have hid : s.id = t.id := by rw [hsid, htid, hro, huo, ← hrt, ← hut]
  have hfg : f = g := hd f g s t (.under s hs (hsp.trans hrp) hp) (.under t ht (htp.trans hup) hp)
    hs ht hid
  subst hfg
  exact h.first_inj i r j u f hr hu hf hg

end Steady

end Layout

/-! ## The operations -/

/-- Slots are assigned in ranges that grow. -/
def Operation.InGrowing (n : Numbering) : Operation → Prop
  | .assign range _ => ∀ r, n.layout.range? range = some r → r.stage = .growing
  | _ => True

namespace Numbering

open Layout

/-- An operation that keeps to the rule cuts nothing off. -/
theorem steady_perform {n : Numbering} {op : Operation} (h : n.layout.Steady)
    (hop : op.InGrowing n) :
    (n.perform op).layout.Steady ∧ n.layout.Extends (n.perform op).layout := by
  have hordered : (n.perform op).layout.Ordered := ordered_perform h.toOrdered op
  have hrework : ∀ {n' : Numbering}, n.layout.Reworked n'.layout → n'.layout.Ordered →
      n'.layout.Steady ∧ n.layout.Extends n'.layout :=
    fun hr ho => ⟨hr.steady h ho, hr.extend⟩
  refine perform_induction (I := fun n' => n'.layout.Steady ∧ n.layout.Extends n'.layout)
    ⟨h, .refl _⟩ ?_ ?_ ?_ ?_ ?_ ?_ ?_ ?_
  · intro typ abbreviation lead _
    have ho := h.toOrdered.newRange typ abbreviation lead
    have hr : n.layout.Reworked (n.newRange typ abbreviation lead).2.layout := by
      rw [layout_newRange]
      exact .addRange _ ⟨fun _ => ⟨rfl, rfl⟩, fun hg => absurd rfl hg⟩
    exact hrework hr ho
  · intro range slot n' _ hn
    obtain ⟨r, hr, hf, ⟨ha, hc, rfl⟩ | ⟨hnone, heq⟩⟩ := next_cases hn
    · refine hrework (.modify _ _ _ fun u hu => ?_) (h.toOrdered.next hn)
      cases hr.symm.trans hu
      exact ⟨⟨rfl, rfl, rfl⟩, by simp [ha]⟩
    · cases heq
      have hc := h.toSound.claim hr false none
      have hg : r.stage = .growing := by
        cases hst : r.stage with
        | growing => rfl
        | finalized => exact (hf hst).elim
        | assigned => exact (h.handle range r hr (by simp [hst]) (hnone hst)).elim
      exact ⟨h.claimed hc hg, h.extends_claimed hc hg⟩
  · intro range below n' _ hn
    obtain ⟨r, slot, s, hr, -, -, -, -, -, ho⟩ := sub_cases hn
    exact hrework (.opened ho hr ⟨rfl, rfl, rfl⟩ rfl ⟨fun _ => ⟨rfl, rfl⟩, fun hg => absurd rfl hg⟩)
      (h.toOrdered.sub hn)
  · intro range level handle n' heq hn
    subst heq
    obtain ⟨r, hr, -, -, hl⟩ := assign_cases hn
    have hg : r.stage = .growing := hop r hr
    have hc := h.toSound.claim hr r.subOpened level
    have ho : n'.layout.Ordered := h.toOrdered.assign hn
    rw [hl] at ho ⊢
    have hadd : (n.claim range r level).2.layout.Reworked ((n.claim range r level).2.layout.addRange
        (r.handle n.layout.freshSlot (n.leadFor range r) level)).2 :=
      .addRange _ ⟨fun hg => (by cases hg), fun _ => by simp [Range.handle]⟩
    exact ⟨hadd.steady (h.claimed hc hg) ho, (h.extends_claimed hc hg).trans hadd.extend⟩
  · exact fun range separator rule _ =>
      hrework (.modify _ _ _ fun _ _ => ⟨⟨rfl, rfl, rfl⟩, Iff.rfl⟩) (h.toOrdered.setRule ..)
  · exact fun range weight _ => hrework (.modify _ _ _ fun _ _ => ⟨⟨rfl, rfl, rfl⟩, Iff.rfl⟩)
      (h.toOrdered.modify _ fun _ => ⟨rfl, rfl, rfl, rfl, rfl, rfl⟩)
  · exact fun active _ => hrework ⟨rfl, fun _ s hs => ⟨s.label, hs⟩,
      fun _ r hr => ⟨r, hr, ⟨rfl, rfl, rfl⟩, Iff.rfl⟩, fun _ _ hr' hr => by cases hr.symm.trans hr'⟩
      (h.toOrdered.setActive active)
  · intro range incoming n' _ hn
    obtain ⟨hl, -⟩ := createLabels_layout hn
    have hr := Layout.createLabels_relabeled hl
    exact hrework (.relabeled hr) (h.toOrdered.relabeled hr)

theorem steady_run {ops : List Operation} (h : Along (fun n op => op.InGrowing n) {} ops) :
    (run {} ops).layout.Steady :=
  h.run_induction (I := fun n => n.layout.Steady) .empty fun _ _ hop hn => (steady_perform hn hop).1

/-- As long as slots are assigned in ranges that grow, every operation leaves the sequences as they
are up to their ends, every slot is listed, and once. Ids then tell the slots of a tree apart
exactly if no two ranges with slots lie below one slot. -/
theorem slotsOf_prefix_perform (ops : List Operation) (op : Operation)
    (h : Along (fun n op => op.InGrowing n) {} (ops ++ [op])) (range : RangeId) :
    let before := (run {} ops).layout
    let after := (run {} (ops ++ [op])).layout
    before.slotsOf range <+: after.slotsOf range ∧ (after.slotsOf range).Nodup ∧
      (∀ q s, after.slot? q = some s → q ∈ after.slotsOf s.range) ∧
      (after.DistinctIds range ↔ after.SingleBelow range) := by
  intro before after
  obtain ⟨hops, hop, -⟩ := Along.append_iff.1 h
  obtain ⟨hsteady, hextends⟩ := steady_perform (steady_run hops) hop
  rw [← run_concat] at hsteady hextends
  refine ⟨hextends.slotsOf_prefix range, nodup_slotsOf hsteady.toSound range, fun q s hs => ?_,
    hsteady.distinctIds_iff range⟩
  obtain ⟨r, f, hr, -, -, hf, hfollows⟩ := hsteady.home q s hs
  exact mem_slotsOf hsteady.toSound hr hf hfollows (slot?_lt hs)

/-- Two slots and one below the second, of which the first one is assigned. -/
theorem slotsOf_prefix_assign_next :
    let ops : List Operation := [.newRange "section" "" none, .assign ⟨0⟩ (some 1), .next ⟨0⟩, .sub ⟨0⟩]
    (Along (fun n op => op.InGrowing n) {} (ops ++ [.next ⟨2⟩])) ∧
      (run {} (ops ++ [.next ⟨2⟩])).layout.slotsOf ⟨0⟩ = [⟨0⟩, ⟨1⟩] ∧
      (run {} ops).layout.slotsOf ⟨0⟩ <+: (run {} (ops ++ [.next ⟨2⟩])).layout.slotsOf ⟨0⟩ := by
  have h : Along (fun n op => op.InGrowing n) {} (([.newRange "section" "" none,
      .assign ⟨0⟩ (some 1), .next ⟨0⟩, .sub ⟨0⟩] : List Operation) ++ [.next ⟨2⟩]) := by
    refine ⟨trivial, ?_, trivial, trivial, trivial, trivial⟩
    intro r hr
    cases hr
    rfl
  exact ⟨h, by decide, (slotsOf_prefix_perform _ _ h ⟨0⟩).1⟩

/-- A slot that is assigned in a range made for a slot cuts off what is behind that one. -/
theorem not_forall_slotsOf_prefix : ¬ ∀ (ops : List Operation) (op : Operation) (range : RangeId),
    (run {} ops).layout.slotsOf range <+: (run {} (ops ++ [op])).layout.slotsOf range := by
  intro h
  have hcut := h [.newRange "section" "" none, .assign ⟨0⟩ none, .next ⟨0⟩] (.assign ⟨1⟩ none) ⟨0⟩
  revert hcut
  decide

end Numbering

end Folio
