import Folio.Proofs.Resolution.Course
import Mathlib.Data.List.Nodup

/-!
# Which slots get labels

Labels are bound root by root, to the ranges of each label type, to those of a master before those
that follow it. The list of types that are done keeps a range from being bound twice. In the end
the slots with labels are those that the range of an entry covers (`bindRoots_spec`).

That needs the label types of a root to be distinct, which claiming sees to (`Distinct`).
-/

namespace Folio

open Resolution

namespace Resolution

/-- No root has two ranges for one label type. -/
def Distinct (s : Resolution) : Prop :=
  ∀ root entries, s.roots.lookup root = some entries → (entries.map RangeEntry.typ).Nodup

/-- The range of some entry in a list covers a slot. -/
def CoversAny (l : Layout) (entries : List RangeEntry) (q : SlotId) : Prop :=
  ∃ e ∈ entries, l.Covers e.range q

/-- The resolution with labels bound: those slots have one that had one before or meet `P`. -/
structure Bound (s s' : Resolution) (P : SlotId → Prop) : Prop where
  same : s' = { s with numbering := s'.numbering }
  relabeled : s.numbering.layout.Relabeled s'.numbering.layout
  label : ∀ q t t', s.numbering.layout.slot? q = some t → s'.numbering.layout.slot? q = some t' →
    (t'.label.isSome ↔ t.label.isSome ∨ P q)

namespace Bound

variable {s s' s'' : Resolution} {P P' : SlotId → Prop}

theorem refl (s : Resolution) : s.Bound s fun _ => False where
  same := rfl
  relabeled := .refl _
  label q t t' h h' := by
    cases h.symm.trans h'
    simp

theorem mono (h : s.Bound s' P) (hP : ∀ q, P q ↔ P' q) : s.Bound s' P' :=
  ⟨h.same, h.relabeled, fun q t t' ht ht' => by rw [h.label q t t' ht ht', hP q]⟩

theorem trans (h : s.Bound s' P) (h' : s'.Bound s'' P') : s.Bound s'' fun q => P q ∨ P' q where
  same := by rw [h'.same, h.same]
  relabeled := h.relabeled.trans h'.relabeled
  label q t t'' ht ht'' := by
    obtain ⟨label, ht'⟩ := h.relabeled.slot q t ht
    rw [h'.label q _ t'' ht' ht'', h.label q t _ ht ht', or_assoc]

theorem keeps (h : s.Bound s' P) : s.Keeps s' := by
  rw [h.same]
  exact ⟨rfl, (Keeps.refl s).frame, (Keeps.refl s).entry, (Keeps.refl s).fixed⟩

theorem sound (h : s.Bound s' P) (hs : s.numbering.layout.Sound) : s'.numbering.layout.Sound :=
  h.relabeled.sound hs

end Bound

end Resolution

namespace Run

variable {s : Resolution} {entries : List RangeEntry}

theorem Bound.of_createLabels (hs : s.numbering.layout.Sound) {range : RangeId} {n : Numbering}
    (h : s.numbering.createLabels range none = .ok n) :
    s.Bound { s with numbering := n } fun q => s.numbering.layout.Covers range q := by
  unfold Numbering.createLabels at h
  cases hl : s.numbering.layout.createLabels range none with
  | error e => simp [hl, Except.map] at h
  | ok layout =>
    rw [hl] at h
    cases h
    exact ⟨rfl, Layout.createLabels_relabeled hl, fun q t t' ht ht' =>
      hs.isSome_label_createLabels hl ht ht'⟩

/-- A type is done, or its range is bound after its master was seen to. So a relation between the
types and states before and after holds if it is kept in these cases. -/
theorem bindLabels_induction {J : RangeEntry → List String → Resolution → List String → Resolution → Prop}
    (hdone : ∀ e done s, e.typ ∈ done → J e done s done s)
    (hfree : ∀ e done s n, e ∈ entries → e.typ ∉ done →
      s.numbering.createLabels e.range none = .ok n →
      J e done s (e.typ :: done) { s with numbering := n })
    (hafter : ∀ e e' done s done₁ s₁ n, e ∈ entries → e.typ ∉ done →
      J e' (e.typ :: done) s done₁ s₁ → s₁.numbering.createLabels e.range none = .ok n →
      J e done s done₁ { s₁ with numbering := n })
    (fuel : Nat) (trail : Trail) (done : List String) {entry : RangeEntry} (he : entry ∈ entries) :
    After True (bindLabels entries fuel trail done entry) s fun done' s' =>
      J entry done s done' s' := by
  induction fuel generalizing trail done entry s with
  | zero => exact trivial
  | succ fuel ih =>
    unfold bindLabels
    dsimp only
    split
    next h => exact hdone entry done s (by simpa using h)
    next h =>
      have hnew : entry.typ ∉ done := by simpa using h
      unfold followMaster
      rw [After.bind_iff]
      cases trail.add? entry.typ with
      | error cycle => exact trivial
      | ok trail =>
        rw [After.pure_iff]
        cases hm : entry.master with
        | none =>
          dsimp only
          rw [After.bind_iff, After.pure_iff, After.bind_iff, After.get_iff]
          cases hn : s.numbering.createLabels entry.range none with
          | error e => exact trivial
          | ok n => exact hfree entry done s n he hnew hn
        | some master =>
          dsimp only
          unfold masterEntry
          rw [After.bind_iff, orFail_iff]
          refine ⟨fun entry' hentry' => ?_, fun _ => trivial⟩
          rw [After.bind_iff]
          refine (ih trail (entry.typ :: done) (List.mem_of_find?_eq_some hentry')).mono ?_
          intro done₁ s₁ h₁
          rw [After.bind_iff, After.get_iff]
          cases hn : s₁.numbering.createLabels entry.range none with
          | error e => exact trivial
          | ok n => exact hafter entry entry' done s done₁ s₁ n he hnew h₁ hn

/-- The slots that hang on ranges of types that got done. -/
def NewlyCovered (entries : List RangeEntry) (l : Layout) (done done' : List String) (q : SlotId) :
    Prop :=
  ∃ e ∈ entries, e.typ ∈ done' ∧ e.typ ∉ done ∧ l.Covers e.range q

theorem newlyCovered_self (l : Layout) (done : List String) (q : SlotId) :
    ¬NewlyCovered entries l done done q :=
  fun ⟨_, _, h, hnot, _⟩ => hnot h

/-- With the range of an entry, those of its type are covered. -/
theorem newlyCovered_cons (hnodup : (entries.map RangeEntry.typ).Nodup) {entry : RangeEntry}
    (he : entry ∈ entries) {l : Layout} {done done' : List String} (hnew : entry.typ ∉ done)
    (hin : entry.typ ∈ done') (q : SlotId) : NewlyCovered entries l done done' q ↔
      NewlyCovered entries l (entry.typ :: done) done' q ∨ l.Covers entry.range q := by
  constructor
  · rintro ⟨e, hmem, hin, hnot, hc⟩
    by_cases heq : e.typ = entry.typ
    · cases List.inj_on_of_nodup_map hnodup hmem he heq
      exact .inr hc
    · exact .inl ⟨e, hmem, hin, by simp [heq, hnot], hc⟩
  · rintro (⟨e, hmem, hin, hnot, hc⟩ | hc)
    · exact ⟨e, hmem, hin, fun h => hnot (List.mem_cons_of_mem _ h), hc⟩
    · exact ⟨entry, he, hin, hnew, hc⟩

/-- The types that get done are those whose ranges are bound. -/
theorem bindLabels_spec (hnodup : (entries.map RangeEntry.typ).Nodup) (fuel : Nat) (trail : Trail)
    (done : List String) {entry : RangeEntry} (he : entry ∈ entries)
    (hs : s.numbering.layout.Sound) :
    After True (bindLabels entries fuel trail done entry) s fun done' s' =>
      (∀ typ ∈ done, typ ∈ done') ∧ entry.typ ∈ done' ∧
      s.Bound s' (NewlyCovered entries s.numbering.layout done done') := by
  refine (bindLabels_induction (J := fun entry done s done' s' => s.numbering.layout.Sound →
    (∀ typ ∈ done, typ ∈ done') ∧ entry.typ ∈ done' ∧
      s.Bound s' (NewlyCovered entries s.numbering.layout done done')) ?_ ?_ ?_ fuel trail done
    he).mono fun _ _ h => h hs
  · exact fun entry done s hin _ => ⟨fun _ h => h, hin,
      (Bound.refl s).mono fun q => by simp [newlyCovered_self]⟩
  · intro entry done s n he hnew hn hs
    refine ⟨fun typ h => List.mem_cons_of_mem _ h, List.mem_cons_self .., ?_⟩
    refine (Bound.of_createLabels hs hn).mono fun q => ?_
    rw [newlyCovered_cons hnodup he hnew (List.mem_cons_self ..)]
    simp [newlyCovered_self]
  · intro entry entry' done s done₁ s₁ n he hnew h hn hs
    obtain ⟨hsub, -, hb⟩ := h hs
    have hin := hsub _ (List.mem_cons_self ..)
    refine ⟨fun typ h => hsub typ (List.mem_cons_of_mem _ h), hin, ?_⟩
    refine (hb.trans (Bound.of_createLabels (hb.sound hs) hn)).mono fun q => ?_
    rw [hb.relabeled.covers_iff, newlyCovered_cons hnodup he hnew hin]

/-- All ranges of a root are bound. -/
theorem bindEntries_spec (hnodup : (entries.map RangeEntry.typ).Nodup) (fuel : Nat)
    (hs : s.numbering.layout.Sound) :
    After True (entries.foldlM (bindLabels entries fuel {}) []) s fun _ s' =>
      s.Bound s' (CoversAny s.numbering.layout entries) := by
  refine (After.foldlM (J := fun pre done s' => (∀ e ∈ pre, e.typ ∈ done) ∧
    s.Bound s' fun q => ∃ e ∈ entries, e.typ ∈ done ∧ s.numbering.layout.Covers e.range q)
    ?_ ⟨by simp, (Bound.refl s).mono fun q => by simp⟩).mono ?_
  · rintro pre entry post done s₁ hsplit ⟨hpre, hb⟩
    have he : entry ∈ entries := by simp [← hsplit]
    refine (bindLabels_spec hnodup fuel {} done he (hb.sound hs)).mono ?_
    rintro done' s₂ ⟨hsub, hmem, hb'⟩
    refine ⟨fun e h => ?_, (hb.trans hb').mono fun q => ?_⟩
    · rcases List.mem_append.1 h with h | h
      · exact hsub _ (hpre e h)
      · cases List.mem_singleton.1 h
        exact hmem
    · simp only [NewlyCovered, hb.relabeled.covers_iff]
      constructor
      · rintro (⟨e, hin, hd, hc⟩ | ⟨e, hin, hd, -, hc⟩)
        · exact ⟨e, hin, hsub _ hd, hc⟩
        · exact ⟨e, hin, hd, hc⟩
      · rintro ⟨e, hin, hd, hc⟩
        by_cases h : e.typ ∈ done
        · exact .inl ⟨e, hin, h, hc⟩
        · exact .inr ⟨e, hin, hd, h, hc⟩
  · rintro done s' ⟨hall, hb⟩
    refine hb.mono fun q => ⟨fun ⟨e, hin, _, hc⟩ => ⟨e, hin, hc⟩, fun ⟨e, hin, hc⟩ => ?_⟩
    exact ⟨e, hin, hall e hin, hc⟩

/-- In the end the slots with labels are those that are covered. -/
theorem bindRoots_spec (hd : s.Distinct) (hs : s.numbering.layout.Sound) (roots : List String) :
    After True (bindRoots roots) s fun _ s' => s.Bound s' fun q =>
      ∃ root ∈ roots, ∃ entries, s.roots.lookup root = some entries ∧
        CoversAny s.numbering.layout entries q := by
  unfold bindRoots
  refine After.forM_split (J := fun pre _ s' => s.Bound s' fun q =>
    ∃ root ∈ pre, ∃ entries, s.roots.lookup root = some entries ∧
      CoversAny s.numbering.layout entries q) ?_ ((Bound.refl s).mono fun q => by simp)
  intro pre root post s₁ _ hb
  rw [After.bind_iff, After.get_iff]
  dsimp only
  have hroots : s₁.roots = s.roots := by rw [hb.same]
  rw [hroots]
  have hcovers : ∀ entries, CoversAny s₁.numbering.layout entries = CoversAny s.numbering.layout entries := by
    intro entries
    funext q
    simp only [CoversAny, hb.relabeled.covers_iff]
  rw [After.bind_iff]
  cases hlookup : s.roots.lookup root with
  | none =>
    refine hb.mono fun q => ?_
    simp [or_and_right, exists_or, hlookup]
  | some entries =>
    rw [Option.getD_some]
    refine (bindEntries_spec (hd root entries hlookup) _ (hb.sound hs)).mono fun _ s₂ hb' => ?_
    rw [hcovers] at hb'
    refine (hb.trans hb').mono fun q => ?_
    simp [or_and_right, exists_or, hlookup]

/-! ## Which labels are bound -/

/-- What every walk from the head of the range of an entry keeps is kept by binding. -/
theorem bindLabels_keeps {J : Resolution → Prop}
    (hJ : ∀ t n e, J t → e ∈ entries → t.numbering.createLabels e.range none = .ok n →
      J { t with numbering := n }) (fuel : Nat) (trail : Trail) (done : List String)
    {entry : RangeEntry} (he : entry ∈ entries) (h : J s) :
    After True (bindLabels entries fuel trail done entry) s fun _ s' => J s' :=
  (bindLabels_induction (J := fun _ _ s _ s' => J s → J s') (fun _ _ _ _ h => h)
    (fun e _ s n he _ hn h => hJ s n e h he hn)
    (fun e _ _ _ _ s₁ n he _ h₁ hn h => hJ s₁ n e (h₁ h) he hn) fuel trail done he).mono
    fun _ _ hJ => hJ h

/-- The labels of `s'` are those that walks from the heads of ranges in `s` bind. -/
structure Borne (s s' : Resolution) : Prop where
  roots : s'.roots = s.roots
  relabeled : s.numbering.layout.Relabeled s'.numbering.layout
  label : ∀ q t label, s'.numbering.layout.slot? q = some t → t.label = some label →
    ∃ root entries e, s.roots.lookup root = some entries ∧ e ∈ entries ∧
      s.numbering.layout.Bears e.range q label

theorem bindRoots_borne (hs : s.numbering.layout.Sound)
    (hnone : ∀ q t, s.numbering.layout.slot? q = some t → t.label = none) (roots : List String) :
    After True (bindRoots roots) s fun _ s' => Borne s s' := by
  unfold bindRoots
  refine After.forM (fun root _ s₁ h₁ => ?_) ⟨rfl, .refl _, fun q t label ht hlabel => ?_⟩
  · rw [After.bind_iff, After.get_iff]
    dsimp only
    rw [h₁.roots, After.bind_iff]
    cases hlookup : s.roots.lookup root with
    | none => exact h₁
    | some entries =>
      rw [Option.getD_some]
      refine (After.foldlM (J := fun _ _ t => Borne s t)
        (fun pre entry post done t hsplit ht => ?_) h₁).mono fun _ _ h => h
      refine bindLabels_keeps (fun t n e ht he hn => ?_) _ _ done (by simp [← hsplit]) ht
      have hb := Bound.of_createLabels (ht.relabeled.sound hs) hn
      refine ⟨ht.roots, ht.relabeled.trans hb.relabeled, fun q u label hu hlabel => ?_⟩
      unfold Numbering.createLabels at hn
      cases hl : t.numbering.layout.createLabels e.range none with
      | error e => simp [hl, Except.map] at hn
      | ok layout =>
        rw [hl] at hn
        cases hn
        rcases (ht.relabeled.sound hs).label_createLabels hl hu hlabel with hbears | ⟨v, hv, hlabel⟩
        · exact ⟨root, entries, e, hlookup, he, hbears.relabeled ht.relabeled.symm⟩
        · exact ht.label q v label hv hlabel
  · rw [hnone q t ht] at hlabel
    simp at hlabel

end Run

end Folio
