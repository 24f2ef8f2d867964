import Folio.Proofs.Resolution.Naming
import Folio.Proofs.Resolution.Owners
import Folio.Proofs.Resolution.Roots

/-!
# Names of labels with a master

A label of a type that follows a master shows the numbers of its counter, and in front of them the
name of a slot of the master in the same root (`Resolved.exists_named`). From such a name both can be
read back. So two labels of a root that have the same name show the same numbers behind the same
slot, and the counter has started again between them (`Resolution.Named.restarts`).
-/

namespace Folio

open Resolution

namespace Resolution

/-- In the tree of the type `typ`, which starts at the slot `f`, the slot `q` shows the numbers of
the counter `c`. In front of them stands the name of its lead, if it has one. -/
structure Named (s : Resolution) (master : String) (σ : Char) (root typ : String) (f q a : SlotId)
    (m : Nat) (c : Counter) (t u : Slot) (name : String) : Prop where
  first : ∃ e r, s.rangeFor? root typ = some e ∧ s.numbering.layout.range? e.range = some r ∧
    r.first = some f
  reaches : s.numbering.layout.Reaches f q
  counted : s.numbering.layout.Counted f typ q a m c t u
  name : t.lead = none ∧ name = dotted c.numbers ∨
    ∃ x v, t.lead = some x ∧ s.HangsAt root master x ∧ s.numbering.layout.slot? x = some v ∧
      v.id.path ≠ [] ∧ name = separated (dotted v.id.path) σ c.numbers

/-- What hangs on the range of a type is of this type, and its ordinals start at 1. -/
theorem Typed.exists_slot {s : Resolution} (h : s.Typed) (ho : s.numbering.layout.Ordered)
    {root typ : String} {e : RangeEntry} {q : SlotId} (he : s.rangeFor? root typ = some e)
    (htop : ∃ u, s.numbering.layout.range? e.range = some u ∧ u.parent = none)
    (hq : s.numbering.layout.Covers e.range q) :
    ∃ r f v t, s.numbering.layout.range? e.range = some r ∧ r.first = some f ∧
      s.numbering.layout.slot? f = some v ∧ v.id = ⟨typ, [1]⟩ ∧ v.parent = none ∧
      s.numbering.layout.Reaches f q ∧ s.numbering.layout.slot? q = some t ∧ t.id.typ = typ ∧
      t.id.path ≠ [] := by
  obtain ⟨r, f, hr, hf, hreach⟩ := hq
  obtain ⟨u, hu, hp⟩ := htop
  cases hr.symm.trans hu
  obtain ⟨entries, hentries, hmem, hetyp⟩ := rangeFor?_eq_some he
  obtain ⟨u, hu, htyp⟩ := h.entry root entries e hentries hmem
  cases hr.symm.trans hu
  have hseq := ho.sequence e.range r hr
  obtain ⟨v, hv, hid, hvp⟩ := hseq.first f hf
  rw [hseq.top hp, List.nil_append, htyp, hetyp] at hid
  obtain ⟨t, outer, k, ht, ht', hpath⟩ := ho.path_of_reaches hv (by rw [hid]) hreach
  exact ⟨r, f, v, t, hr, hf, hv, hid, hvp.trans hp, hreach, ht, by rw [ht', hid], by simp [hpath]⟩

/-- If two labels of a root have the same name, the counter has started again between them. -/
theorem Named.restarts {s : Resolution} {master root typ : String} {σ : Char} {f f' q q' a a' : SlotId}
    {m m' : Nat} {c c' : Counter} {t t' u u' : Slot} {name : String}
    (h : s.Named master σ root typ f q a m c t u name)
    (h' : s.Named master σ root typ f' q' a' m' c' t' u' name)
    (ht : s.Typed) (ho : s.numbering.layout.Ordered)
    (htop : ∀ typ e, s.rangeFor? root typ = some e →
      ∃ u, s.numbering.layout.range? e.range = some u ∧ u.parent = none)
    (hσ : σ ≠ '.' ∧ ¬σ.isDigit) (hne : q ≠ q') : s.numbering.layout.Restarts q q' := by
  obtain ⟨e, r, he, hr, hf⟩ := h.first
  obtain ⟨e', r', he', hr', hf'⟩ := h'.first
  cases he.symm.trans he'
  cases hr.symm.trans hr'
  cases hf.symm.trans hf'
  obtain ⟨r', f', v, -, hr', hf', hv, hid, -⟩ :=
    ht.exists_slot ho he (htop typ e he) ⟨r, f, hr, hf, h.reaches⟩
  cases hr.symm.trans hr'
  cases hf.symm.trans hf'
  have hnonempty : ∀ {c : Counter} {p b : SlotId} {k : Nat} {w z : Slot},
      s.numbering.layout.Counted f typ p b k c w z → c.numbers ≠ [] := by
    intro c p b k w z hc
    rw [hc.stands.numbers]
    simp
  have hn := hnonempty h.counted
  have hn' := hnonempty h'.counted
  suffices hsame : t.lead = t'.lead ∧ c.numbers = c'.numbers from
    h.counted.restarts ho hv hid h'.counted h.reaches h'.reaches hne hsame.2 hsame.1
  rcases h.name with ⟨hlead, hname⟩ | ⟨x, w, hlead, hx, hw, hpath, hname⟩ <;>
    rcases h'.name with ⟨hlead', hname'⟩ | ⟨x', w', hlead', hx', hw', hpath', hname'⟩
  · exact ⟨hlead.trans hlead'.symm, dotted_injective hn hn' (hname.symm.trans hname')⟩
  · exact (separated_ne_dotted hσ _ (hname'.symm.trans hname)).elim
  · exact (separated_ne_dotted hσ _ (hname.symm.trans hname')).elim
  · obtain ⟨heq, hnumbers⟩ :=
      separated_injective hσ hpath hpath' hn hn' (hname.symm.trans hname')
    -- In the tree of the master, the slot is found by its ordinals.
    obtain ⟨em, hem, hcx⟩ := hx
    obtain ⟨em', hem', hcx'⟩ := hx'
    cases hem.symm.trans hem'
    obtain ⟨rm, fm, vm, -, hrm, hfm, hvm, hidm, -, hreach, -⟩ :=
      ht.exists_slot ho hem (htop master em hem) hcx
    obtain ⟨rm', fm', -, -, hrm', hfm', -, -, -, hreach', -⟩ :=
      ht.exists_slot ho hem (htop master em hem) hcx'
    cases hrm.symm.trans hrm'
    cases hfm.symm.trans hfm'
    obtain rfl := ho.eq_of_path_eq hvm (by rw [hidm]) hreach hreach' hw hw' heq
    exact ⟨hlead.trans hlead'.symm, hnumbers⟩

end Resolution

namespace Resolved

variable {c : Collection} {W : List (String × List Visit)} {s₀ s₁ s₂ s : Resolution}
  {master typ : String} {σ : Char} {d : String}

/-- The entries of the result are those after claiming, with titles. -/
theorem exists_entry (h : Resolved c W s₀ s₁ s₂ s) {e : EntryId} {entry : Entry}
    (he : s.registry.entryAt? e = some entry) :
    ∃ old title, s₁.registry.entryAt? e = some old ∧ entry = { old with title } := by
  have hregistry : s₂.registry = s₁.registry := by rw [h.bound.same]
  have hlt : e.index < s₁.registry.entries.size := by
    rw [← hregistry, ← h.settled.entries_size]
    exact (Array.getElem?_eq_some_iff.1 he).1
  have hold : s₁.registry.entryAt? e = some s₁.registry.entries[e.index] :=
    Array.getElem?_eq_getElem hlt
  obtain ⟨title, he'⟩ := h.settled.title e s₁.registry.entries[e.index] (by
    rw [hregistry]
    exact hold)
  exact ⟨_, title, hold, Option.some.inj (he.symm.trans he')⟩

/-- A slot of the master shows its ordinals. -/
theorem name_of_hangsAt (h : Resolved c W s₀ s₁ s₂ s) {separator root : String}
    (hp : s₀.Planted master separator d s₁)
    (hrule : ∀ d info separator rule, s₀.info? d = some info →
      Run.newRule s₀.options master (info.document.settings.lookup master) = .ok (separator, rule) →
      rule = .numbered master (some 0))
    {x : SlotId} (hx : s₁.HangsAt root master x) :
    ∃ y, s₁.numbering.layout.slot? x = some y ∧ y.id.path ≠ [] ∧
      s.numbering.layout.name x = some (dotted y.id.path) := by
  obtain ⟨e, he, hcovers⟩ := hx
  obtain ⟨-, -, -, y, -, -, -, -, -, -, hy, hyt, hpath⟩ :=
    hp.regular.typed.exists_slot hp.regular.ordered he (hp.own _ _ e he).root hcovers
  obtain ⟨label, hy₂⟩ := h.bound.relabeled.slot x y hy
  rw [← h.numbering_eq] at hy₂
  obtain ⟨l, rfl⟩ := Option.isSome_iff_exists.1 (h.isSome_label hp.toOrderly hy₂)
  have hshows := h.label_eq_of_unled hp.regular hrule hy₂ hyt rfl
  obtain ⟨k, hk⟩ : ∃ k, s.numbering.layout.slots.size = k + 1 :=
    ⟨_, (Nat.succ_pred_eq_of_pos (Nat.zero_lt_of_lt (Layout.slot?_lt hy₂))).symm⟩
  refine ⟨y, hy, hpath, ?_⟩
  rw [Layout.name, hk, Layout.nameAt, hy₂]
  exact congrArg some (hshows.nameWith _)

/-- The name of a labeled node of a type with a master. -/
theorem exists_named (h : Resolved c W s₀ s₁ s₂ s) (hp : s₀.Planted master (String.singleton σ) d s₁)
    (hr : s₀.Regular master typ s₁)
    (hrule : ∀ typ', typ' = typ ∨ typ' = master → ∀ d info separator rule, s₀.info? d = some info →
      Run.newRule s₀.options typ' (info.document.settings.lookup typ') = .ok (separator, rule) →
      rule = .numbered typ' (some 0))
    {e : EntryId} {entry : Entry} (he : s.registry.entryAt? e = some entry)
    (htyp : entry.id.typ = typ) {root : String} (hroot : Rooted s₀ root entry.document) :
    ∃ f q a m c t u, entry.slot = some q ∧
      s₁.Named master σ root typ f q a m c t u (s.labelReport entry).name := by
  obtain ⟨q, t', hq, ht'⟩ := h.exists_slot he
  obtain ⟨old, title, hold, rfl⟩ := h.exists_entry he
  obtain ⟨e₂, t, he₂, hcovers, ht, hlead⟩ := hp.stands e old q root hold hq hroot
  have htid : t'.id = t.id ∧ t'.lead = t.lead := by
    obtain ⟨label, ht₁⟩ := h.slot?_eq ht'
    cases ht.symm.trans ht₁
    exact ⟨rfl, rfl⟩
  obtain ⟨u₂, hu₂, hup₂⟩ := (hp.own root _ e₂ he₂).root
  have he₂' : s₁.rangeFor? root typ = some e₂ := htyp ▸ he₂
  obtain ⟨-, -, -, w, -, -, -, -, -, -, hw, hwt, -⟩ :=
    hr.typed.exists_slot hr.ordered he₂' ⟨u₂, hu₂, hup₂⟩ hcovers
  cases ht.symm.trans hw
  obtain ⟨label, hlabel⟩ := Option.isSome_iff_exists.1 (h.isSome_label hp.toOrderly ht')
  obtain ⟨root₁, entries, e₁, r, f, v, sep, ρ, hlookup, he₁, -, hrange, hf, hv, hvid, hvp, hc,
    rfl⟩ := h.exists_counts hr (hrule typ (.inl rfl)) ht' (by rw [htid.1, hwt]) hlabel
  -- The walk that binds the label sets out from the tree of the root.
  obtain ⟨r₁, -, -, -, hrange₁, hparent₁, -⟩ := hr.configured root₁ entries e₁ hlookup he₁
  cases hrange.symm.trans hrange₁
  have hsame : e₁.range = e₂.range := hp.sound.covers_unique hrange hu₂ hparent₁ hup₂
    ⟨r, f, hrange, hf, hc.reaches⟩ hcovers
  rw [hsame] at hrange
  obtain rfl : r = u₂ := Option.some.inj (hrange.symm.trans hu₂)
  obtain ⟨a, m, c', t₁, u, hcounted, rfl⟩ := hc.numbered hr.ordered hr.plain hr.led hv hvid hvp
  cases ht.symm.trans hcounted.slot
  refine ⟨f, q, a, m, c', t, u, hq, ⟨e₂, r, he₂', hrange, hf⟩, hc.reaches, hcounted, ?_⟩
  have hname : (s.labelReport { old with title }).name = s.numbering.layout.labelName
      (.ofLead t'.lead sep (.count .numbered c')) :=
    labelReport_name (labelOf?_eq hq ht' hlabel)
  rw [hname, htid.2]
  cases hx : t.lead with
  | none => exact .inl ⟨rfl, rfl⟩
  | some x =>
    obtain ⟨⟨u₃, hu₃, hσ⟩, root', typ', e₃, he₃, hrange₃, hangs⟩ := hlead x hx
    cases hrange.symm.trans hu₃
    obtain ⟨rfl, -⟩ := hp.apart root' typ' e₃ root _ e₂ he₃ he₂ hrange₃
    have hsep : sep = String.singleton σ := hp.mastered.separator_of_counts hr.led hr.ordered hc hv
      hvp ht (by simp [hx]) hσ
    obtain ⟨y, hy, hypath, hfront⟩ := h.name_of_hangsAt hp (hrule master (.inr rfl)) hangs
    refine .inr ⟨x, y, rfl, hangs, hy, hypath, ?_⟩
    change Label.nameWith s.numbering.layout.name (.led x sep (.count .numbered c')) = _
    rw [Label.nameWith, hfront, Option.getD_some, if_neg (dotted_ne_empty hypath), hsep]
    rfl

end Resolved

end Folio
