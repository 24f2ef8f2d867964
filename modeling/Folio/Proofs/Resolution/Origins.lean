import Folio.Proofs.Numbering.Origins
import Folio.Proofs.Resolution.Regular

/-!
# Rules and levels are declared

While slots are claimed, a range at the top gets the rule that a document configures, the range
inside a labeled node gets what the node says, and a slot that is handed over gets the level that
the embedded document sets. So all rules and levels are declared in some document of the collection
(`Prepared.declared`).
-/

namespace Folio

open Resolution

/-- What the documents of a collection declare for ranges and slots. -/
def Collection.declarations (c : Collection) : Declarations where
  top rule := ∃ path d typ separator, (path, d) ∈ c.documents ∧
    Run.newRule c.options typ (d.settings.lookup typ) = .ok (separator, rule)
  nested rule := ∃ h, c.stock.heading h ∧ h.nested = some rule
  level level := ∃ path d typ settings, (path, d) ∈ c.documents ∧
    d.settings.lookup typ = some settings ∧ settings.level = some level

/-- The range inside a node has what the node says. -/
theorem Numbering.range?_withNested_self (n : Numbering) (below : RangeId) (nested : NestedRule) :
    (n.withNested below (some nested)).layout.range? below =
      (n.layout.range? below).map fun r => { r with
        separator := nested.separator, rule := nested.rule, weight := nested.level.or r.weight } := by
  unfold Numbering.withNested
  dsimp only
  rw [Numbering.range?_setRule, if_pos rfl]
  cases nested.level with
  | none => simp
  | some level =>
    rw [Option.isSome_some, if_pos rfl, Numbering.range?_setWeight, if_pos rfl, Option.map_map]
    rfl

theorem Layout.DeclaredBy.withNested {D : Declarations} {n : Numbering} {below : RangeId}
    {nested : Option NestedRule} (h : n.layout.DeclaredBy D)
    (hb : ∀ r, n.layout.range? below = some r → r.parent ≠ none ∧ r.weight = none)
    (hn : ∀ rule, nested = some rule → D.nested rule) :
    (n.withNested below nested).layout.DeclaredBy D := by
  cases nested with
  | none => exact h
  | some nested =>
    refine h.grow (fun i r' hr' => ?_) fun q t level ht hl => .inl ⟨t, ?_, hl⟩
    · by_cases hi : i = below
      · subst hi
        rw [Numbering.range?_withNested_self] at hr'
        obtain ⟨r, hr, rfl⟩ := Option.map_eq_some_iff.1 hr'
        obtain ⟨hp, hw⟩ := hb r hr
        exact .inr (.nested nested (hn nested rfl) hp rfl (by simp [hw]))
      · rw [Numbering.range?_withNested _ _ _ hi] at hr'
        exact .inl ⟨r', hr', .refl r'⟩
    · rwa [Layout.slot?, Numbering.slots_withNested] at ht

namespace Run

theorem embeddedLevel_eq_some {info : DocumentInfo} {typ : String} {level : Nat}
    (h : embeddedLevel info typ = some level) :
    ∃ settings, info.document.settings.lookup typ = some settings ∧
      settings.level = some level := by
  obtain ⟨settings, hs, h⟩ := Option.bind_eq_some_iff.1 h
  split at h
  · cases h
  · exact ⟨settings, hs, h⟩

end Run

namespace Resolution

/-- Slots are claimed, with rules and levels that are declared. -/
structure Declared (c : Collection) (s₀ s : Resolution) : Prop extends s₀.Underway s where
  ordered : s.numbering.layout.Ordered
  declared : s.numbering.layout.DeclaredBy c.declarations
  configured : s₀.Configured s

namespace Declared

variable {c : Collection} {W : List (String × List Visit)} {s₀ s s' : Resolution}

theorem withRange (h : Declared c s₀ s) (hp : Prepared c W s₀) {d typ : String}
    {info : DocumentInfo} (hd : s₀.info? d = some info) {location : Location} {separator : String}
    {rule : LabelRule} (hrule : Run.newRule s.options typ (info.document.settings.lookup typ) =
      .ok (separator, rule)) :
    (s.withRange (info.root.getD d) typ (info.document.settings.lookup typ) location separator
      rule).numbering.layout.DeclaredBy c.declarations := by
  refine h.declared.grow (fun i r' hr' => ?_) fun q t level ht hl => .inl ⟨t, ?_, hl⟩
  · rw [range?_withRange] at hr'
    split at hr'
    · cases hr'
      rw [h.progress.options, hp.options] at hrule
      exact .inr (.top rule ⟨d, _, typ, separator, (hp.info d info hd).1, hrule⟩ rfl rfl rfl)
    · exact .inl ⟨r', hr', .refl r'⟩
  · change (Numbering.newRange _ _ _ _).2.layout.slot? q = _ at ht
    rwa [Numbering.layout_newRange] at ht

/-- A labeled node claims the next slot, and its own rule goes to the range inside. -/
theorem labeled (h : Declared c s₀ s) {f : FrameId} {hd : Heading} {entry : EntryId}
    {inner : FrameId} {range : RangeId} {slot : SlotId} {below : RangeId} {n₁ n₂ : Numbering}
    (hl : s.Labeled s' f hd entry inner range slot below n₁ n₂) (hw : c.stock.heading hd) :
    s'.numbering.layout.DeclaredBy c.declarations := by
  rw [hl.numbering_eq]
  refine ((h.declared.next h.sound hl.next).sub hl.sub).withNested (fun r hr => ?_)
    fun rule hrule => ⟨hd, hw, hrule⟩
  obtain ⟨u, c, t, -, -, -, -, rfl, -, ho⟩ := Numbering.sub_cases hl.sub
  rw [ho.range, if_pos rfl] at hr
  cases hr
  exact ⟨by simp, rfl⟩

/-- An embedding claims a slot with the level of the embedded document. -/
theorem handedOver (h : Declared c s₀ s) (hp : Prepared c W s₀) {f : FrameId} {link : Link}
    {document : String} {info : DocumentInfo} {range handle : RangeId} {n : Numbering}
    (hh : s.HandedOver s' f link document info range handle n) :
    s'.numbering.layout.DeclaredBy c.declarations := by
  rw [hh.numbering_eq]
  refine h.declared.assign h.sound hh.assign fun level hlevel => ?_
  obtain ⟨settings, hs, hl⟩ := Run.embeddedLevel_eq_some hlevel
  obtain ⟨info₀, hinfo₀, heq⟩ := h.progress.info_of hh.info_eq
  rw [heq] at hs
  exact ⟨document, _, _, settings, (hp.info document info₀ hinfo₀).1, hs, hl⟩

end Declared

end Resolution

/-- Claiming gives declared rules and levels to ranges and slots. -/
theorem Prepared.declared {c : Collection} {W : List (String × List Visit)} {s₀ : Resolution}
    (h : Prepared c W s₀) : Claiming.Invariant W s₀ fun _ => Declared c s₀ where
  start d := by
    refine ⟨h.underway.start d, ?_, ?_, fun root entries e hr he => ?_⟩
    · rw [h.numbering]
      exact .empty
    · rw [h.numbering]
      exact .empty
    · simp [(h.roots root entries hr).1] at he
  progress _ t ht := ⟨ht.progress, ht.sound⟩
  range e t d info typ location separator rule ht hd htyp hnone hrule :=
    ⟨h.underway.range e t d info typ location separator rule ht.toUnderway hd htyp hnone hrule,
      (ht.ordered.newRange _ _ _).setRule _ _ _, ht.withRange h hd hrule,
      ht.configured.withRange ht.progress.options hd hrule⟩
  active e t d info ht hd :=
    ⟨h.underway.active e t d info ht.toUnderway hd, ht.ordered.setActive _, ht.declared.setActive _,
      ht.configured⟩
  visit t t' d info vs v ht hd hw hv hready hb hvisit := by
    have hu := h.underway.visit t t' d info vs v ht.toUnderway hd hw hv hready hb hvisit
    have hconf : s₀.Configured t' := by
      intro root entries e hr he
      rw [hvisit.roots] at hr
      exact (ht.configured root entries e hr he).grow fun i r hr => hvisit.settings ht.sound hr
    cases hvisit with
    | text _ _ hn | term _ _ _ _ hn =>
      rw [hn.same] at hu hconf ⊢
      exact ⟨hu, ht.ordered, ht.declared, hconf⟩
    | expansion _ _ _ _ heq => exact heq ▸ ht
    | embedding f key location link document info' range handle n hh =>
      refine ⟨hu, ?_, ht.handedOver h hh, hconf⟩
      rw [hh.numbering_eq]
      exact ht.ordered.assign hh.assign
    | heading f h' entry inner range slot below n₁ n₂ hl =>
      refine ⟨hu, ?_, ht.labeled hl (h.written d vs hw h' ?_), hconf⟩
      · rw [hl.numbering_eq]
        exact Numbering.withNested_induction (P := fun n => n.layout.Ordered) _ _ _
          ((ht.ordered.next hl.next).sub hl.sub) (fun n w hn => hn.setWeight _ w)
          fun n s r hn => hn.setRule _ s r
      · exact List.mem_filterMap.2 ⟨_, hv, rfl⟩

end Folio
