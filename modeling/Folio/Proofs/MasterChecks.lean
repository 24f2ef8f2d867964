import Folio.Proofs.Forest
import Folio.Proofs.FoundTexts
import Folio.Proofs.Resolution.Schedule

/-!
# Master declarations are checked completely

Each document adds ranges to its root, and then all entries of the root are checked. Claiming goes
on only if their masters are known and form no cycle, and changes entries nowhere else. So this
holds for all roots when slots are claimed (`Resolution.Mastered`), and labels are bound in an order
in which masters come first.

Documents are claimed one after the other (`Run.resolveRanges_eq`), so what stops one of them stops
claiming altogether. An unknown master or a cycle that shows when the ranges of a document have been
added is therefore reported (`Collection.Described.masters_checked`).
-/

namespace Folio

open Resolution RangeEntry

/-- The masters of every root are known and form no cycle. Nothing was done since `s₀` but
claiming. -/
structure Resolution.Mastered (s₀ s : Resolution) : Prop where
  progress : s₀.Progress s
  sound : s.numbering.layout.Sound
  distinct : s.Distinct
  masters : ∀ root entries, s.roots.lookup root = some entries →
    MastersKnown entries ∧ MastersAcyclic entries

namespace Run

variable {c : Collection} {W : List (String × List Visit)} {s₀ s : Resolution}

/-! ## Ranges are added -/

/-- Ranges are added to one root, for types that it did not have. -/
theorem provideRanges_spec {root document : String} {settings : Settings} (types : List String)
    (hd : s.Distinct) : After True (types.forM (provideRange root document settings)) s fun _ s' =>
      s'.Distinct ∧ ∀ r, r ≠ root → s'.roots.lookup r = s.roots.lookup r := by
  refine After.forM (I := fun t : Resolution => t.Distinct ∧
    ∀ r, r ≠ root → t.roots.lookup r = s.roots.lookup r) ?_ ⟨hd, fun _ _ => rfl⟩
  rintro typ - t ⟨ht, hother⟩
  refine (provideRange_ends.after).mono ?_
  rintro _ t' (⟨rfl, -⟩ | ⟨hnone, separator, rule, location, -, rfl⟩)
  · exact ⟨ht, hother⟩
  · refine ⟨ht.withRange hnone _ _ _ _, fun r hr => ?_⟩
    rw [lookup_roots_withRange, if_neg hr, hother r hr]

/-- When the ranges of a document are open, the masters of its root have been checked. -/
theorem openRanges_mastered {document : String} {info : DocumentInfo} (h : s₀.Mastered s) :
    After True (openRanges document info) s fun _ s' => s₀.Mastered s' := by
  have hchecked : After True (openRanges document info) s fun _ s' => s'.Distinct ∧
      ∀ root entries, s'.roots.lookup root = some entries →
        MastersKnown entries ∧ MastersAcyclic entries := by
    unfold openRanges
    dsimp only
    rw [After.bind_iff]
    refine (provideRanges_spec info.ranges h.distinct).mono ?_
    rintro _ s₁ ⟨hd, hother⟩
    rw [After.bind_iff, After.get_iff, After.bind_iff]
    have hcheck : After True (((s₁.roots.lookup (info.root.getD document)).getD []).forM
        (checkMasters ((s₁.roots.lookup (info.root.getD document)).getD [])
          (((s₁.roots.lookup (info.root.getD document)).getD []).length + 1) {})) s₁
        fun _ s' => s' = s₁ ∧ ∀ entries,
          s₁.roots.lookup (info.root.getD document) = some entries →
          MastersKnown entries ∧ MastersAcyclic entries := by
      cases hlookup : s₁.roots.lookup (info.root.getD document) with
      | none => exact ⟨rfl, fun _ h => by cases h⟩
      | some entries =>
        rw [Option.getD_some]
        refine (checkEntries_ends (hd _ _ hlookup)).after.mono ?_
        rintro _ s' ⟨rfl, hmasters⟩
        exact ⟨rfl, fun _ h => by cases h; exact hmasters⟩
    refine hcheck.mono ?_
    rintro _ _ ⟨rfl, hmasters⟩
    rw [After.modify_iff]
    refine ⟨hd, fun root entries hroot => ?_⟩
    by_cases heq : root = info.root.getD document
    · exact hmasters entries (heq ▸ hroot)
    · exact h.masters root entries ((hother root heq).symm.trans hroot)
  refine ((openRanges_progress document info h.sound).and hchecked).mono ?_
  rintro _ s' ⟨⟨hp, hs⟩, hd, hmasters⟩
  exact ⟨h.progress.trans hp, hs, hd, hmasters⟩

/-! ## Slots are claimed -/

/-- Claiming the slots of a document checks the masters of its root, and leaves its entries then. -/
theorem claimAlone_mastered (hp : Prepared c W s₀) (h : s₀.Mastered s) (document : String) :
    After True (claimAlone document) s fun _ s' => s₀.Mastered s' := by
  unfold claimAlone
  rw [After.bind_iff, After.get_iff]
  cases hinfo : s.info? document with
  | none => exact h
  | some info =>
    obtain ⟨info₀, hinfo₀, heq⟩ := h.progress.info_of hinfo
    obtain ⟨vs, hw⟩ := hp.exists_walk hinfo₀
    obtain ⟨info₀', hinfo₀', hwalk, -⟩ := hp.walk document vs hw
    cases hinfo₀.symm.trans hinfo₀'
    dsimp only
    rw [After.bind_iff]
    refine (openRanges_mastered h).mono fun _ s₁ h₁ => ?_
    have hwalk : Walk s₁ info.frame info.document.nodes vs := by
      rw [heq]
      exact hwalk.keeps h₁.progress.toKeeps
    rw [After.bind_iff, After.get_iff]
    refine (label_tour.of_visits (R := fun _ => True) hwalk (.inl fun _ => trivial)
      (Nat.le_refl _) (After.forM (I := fun t => (s₁.Keeps t ∧ s₀.Mastered t)) ?_
        ⟨.refl s₁, h₁⟩)).mono fun _ _ h => h.2.2
    rintro v hv t ⟨hk, ht⟩
    refine (labelVisit_spec ((hwalk.ready v hv).keeps hk)).mono fun _ t' hvisited => ?_
    obtain ⟨hprogress, hsound⟩ := hvisited.progress ht.sound
    refine ⟨hk.trans hprogress.toKeeps, ht.progress.trans hprogress, hsound, ?_, ?_⟩
    · rw [Distinct, hvisited.roots]
      exact ht.distinct
    · rw [hvisited.roots]
      exact ht.masters

/-- What stops claiming a document when those before it are claimed stops it altogether. -/
theorem resolveRanges_error (hp : Prepared c W s₀) {pre post : List String} {document : String}
    (horder : s₀.order = pre ++ document :: post) (hpre : pre.forM claimAlone s₀ = .ok () s)
    {e : ResolveError} {t : Resolution} (he : claimAlone document s = .error e t) :
    resolveRanges s₀ = .error e t := by
  refine (resolveRanges_eq hp).trans (bind_of_error ?_)
  rw [horder]
  exact (congrFun List.forM_append _).trans ((bind_of_ok hpre).trans (bind_of_error he))

/-- An unknown master or a cycle that shows when the ranges of a document have been added stops
claiming. -/
theorem claimAlone_reports (h : s₀.Mastered s) {document : String} {info : DocumentInfo}
    (hinfo : s.info? document = some info) {s₁ : Resolution}
    (hadd : info.ranges.forM (provideRange (info.root.getD document) document
      info.document.settings) s = .ok () s₁) {root : String} {entries : List RangeEntry}
    (hentries : s₁.roots.lookup root = some entries)
    (hflaw : ¬MastersKnown entries ∨ ¬MastersAcyclic entries) :
    ∃ e t, claimAlone document s = .error e t ∧ ReportsMaster entries e := by
  obtain ⟨hdistinct, hother⟩ := (provideRanges_spec info.ranges h.distinct).of_ok hadd
  obtain rfl : root = info.root.getD document := by
    by_contra hne
    obtain ⟨hknown, hacyclic⟩ := h.masters root entries ((hother root hne).symm.trans hentries)
    exact hflaw.elim (· hknown) (· hacyclic)
  have hcheck := checkEntries_ends (s := s₁) (hdistinct _ _ hentries)
  cases hrun : entries.forM (checkMasters entries (entries.length + 1) {}) s₁ with
  | ok u t =>
    obtain ⟨-, hknown, hacyclic⟩ := hcheck.of_ok hrun
    exact (hflaw.elim (· hknown) (· hacyclic)).elim
  | error e t =>
    refine ⟨e, t, (bind_of_ok rfl).trans ?_, hcheck.of_error hrun⟩
    rw [hinfo]
    refine bind_of_error ?_
    unfold openRanges
    refine (bind_of_ok hadd).trans ((bind_of_ok rfl).trans ?_)
    rw [hentries, Option.getD_some]
    exact bind_of_error hrun

end Run

namespace Prepared

variable {c : Collection} {W : List (String × List Visit)} {s₀ s : Resolution}

/-- No root has entries at first. -/
theorem mastered (hp : Prepared c W s₀) : s₀.Mastered s₀ where
  progress := .refl s₀
  sound := (hp.underway.progress "" s₀ (hp.underway.start "")).2
  distinct := (hp.underway.start "").distinct
  masters root entries hroot := by
    have hnil := (hp.roots root entries hroot).1
    subst hnil
    exact ⟨fun typ master ⟨e, he, _⟩ => by simp at he, mastersAcyclic_of_grounded (by simp)⟩

/-- When documents are claimed, the masters of their roots have been checked. -/
theorem mastered_claimed (hp : Prepared c W s₀) {documents : List String}
    (h : documents.forM Run.claimAlone s₀ = .ok () s) : s₀.Mastered s := by
  have hall : After True (documents.forM Run.claimAlone) s₀ fun _ s => s₀.Mastered s :=
    After.forM (fun document _ _ ht => Run.claimAlone_mastered hp ht document) hp.mastered
  exact hall.of_ok h

/-- Labels are bound when all roots are claimed and their masters have been checked. -/
theorem exists_mastered (hp : Prepared c W s₀) (hs : Run.resolveRanges s₀ = .ok () s) : ∃ s₁,
    s₀.roots.keys.forM (Run.claimDocument (s₀.documents.length + 1)) s₀ = .ok () s₁ ∧
    s₀.Mastered s₁ ∧ Run.bindRoots s₀.roots.keys s₁ = .ok () s := by
  obtain ⟨_, _, hget, hs⟩ := exists_of_bind_ok hs
  cases hget
  obtain ⟨_, s₁, hclaim, hbind⟩ := exists_of_bind_ok hs
  exact ⟨s₁, hclaim, hp.mastered_claimed ((Run.claimRoots_eq hp).symm.trans hclaim), hbind⟩

end Prepared

/-- The phases before ranges are resolved. -/
def Collection.beforeRanges (c : Collection) : Run Unit := do
  Run.registerAll (c.documents.map Prod.snd)
  Run.resolveStructure
  Run.orderDocuments

namespace Collection.Described

variable {c : Collection} {s₀ : Resolution}

theorem exists_prepared (h : c.Described) (hs₀ : c.beforeRanges c.start = .ok () s₀) :
    ∃ W, Prepared c W s₀ := by
  obtain ⟨_, s₁, h₁, hs₀⟩ := exists_of_bind_ok hs₀
  obtain ⟨W, hcatalog⟩ := h.registerAll_spec.of_ok h₁
  exact ⟨W, ((hcatalog.arrange_ends h).of_ok hs₀).1⟩

theorem resolve_error (hs₀ : c.beforeRanges c.start = .ok () s₀) {e : ResolveError}
    {t : Resolution} (he : Run.resolveRanges s₀ = .error e t) : c.resolve = .error e t := by
  obtain ⟨_, s₁, h₁, hs₀⟩ := exists_of_bind_ok hs₀
  obtain ⟨_, s₂, h₂, h₃⟩ := exists_of_bind_ok hs₀
  exact (bind_of_ok h₁).trans ((bind_of_ok h₂).trans ((bind_of_ok h₃).trans (bind_of_error he)))

/-- If ranges are resolved, masters are known and form no cycle, and binding the labels of a root
comes to binding those of each entry once, after those of its master. If an unknown master or a
cycle shows when the ranges of some document have been added, the resolution fails and tells it.
Binding labels never reports a cycle. -/
theorem masters_checked (h : c.Described) (hs₀ : c.beforeRanges c.start = .ok () s₀) :
    (∀ s, Run.resolveRanges s₀ = .ok () s → ∃ s₁,
      s₀.roots.keys.forM (Run.claimDocument (s₀.documents.length + 1)) s₀ = .ok () s₁ ∧
      Run.bindRoots s₀.roots.keys s₁ = .ok () s ∧ s.roots = s₁.roots ∧
      s.roots.keys = s₀.roots.keys ∧
      ∀ root entries, s.roots.lookup root = some entries →
        MastersKnown entries ∧ MastersAcyclic entries ∧ ∃ order done, MastersFirst entries order ∧
          entries.foldlM (Run.bindLabels entries (entries.length + 1) {}) [] = (do
            order.forM Run.bindEntry
            return done)) ∧
    (∀ pre document post s info s₁ root entries, s₀.order = pre ++ document :: post →
      pre.forM Run.claimAlone s₀ = .ok () s → s.info? document = some info →
      info.ranges.forM (Run.provideRange (info.root.getD document) document
        info.document.settings) s = .ok () s₁ →
      s₁.roots.lookup root = some entries →
      ¬MastersKnown entries ∨ ¬MastersAcyclic entries →
      ∃ e t, Run.resolveRanges s₀ = .error e t ∧ c.resolve = .error e t ∧
        ReportsMaster entries e) ∧
    ∀ (entries : List RangeEntry) (fuel : Nat) (s : Resolution),
      Ends (fun e => ∀ location cycle, e ≠ .located location (.masterCycle cycle))
      (entries.foldlM (Run.bindLabels entries fuel {}) []) s fun _ _ => True := by
  obtain ⟨W, hp⟩ := h.exists_prepared hs₀
  refine ⟨fun s hs => ?_, fun pre document post s info s₁ root entries horder hpre hinfo hadd
    hentries hflaw => ?_, Run.bindEntries_no_cycle⟩
  · obtain ⟨s₁, hclaim, hmastered, hbind⟩ := hp.exists_mastered hs
    have hbound := (Run.bindRoots_spec hmastered.distinct hmastered.sound _).of_ok hbind
    have hroots : s.roots = s₁.roots := by rw [hbound.same]
    refine ⟨s₁, hclaim, hbind, hroots, hroots ▸ hmastered.progress.root_keys, ?_⟩
    intro root entries hentries
    rw [hroots] at hentries
    obtain ⟨hknown, hacyclic⟩ := hmastered.masters root entries hentries
    exact ⟨hknown, hacyclic,
      Run.bindEntries_eq (hmastered.distinct root entries hentries) hknown hacyclic⟩
  · obtain ⟨e, t, he, hreports⟩ :=
      Run.claimAlone_reports (hp.mastered_claimed hpre) hinfo hadd hentries hflaw
    have hrun := Run.resolveRanges_error hp horder hpre he
    exact ⟨e, t, hrun, resolve_error hs₀ hrun, hreports⟩

end Collection.Described

namespace Collection

/-- A document that declares figures to follow tables. -/
def figuresByTable : Collection :=
  single "/doc" { declarations := ["figure:1 master=table", "table:1"] }

/-- A document that declares tables and figures to follow each other. -/
def cyclicMasters : Collection :=
  single "/doc" { declarations := ["figure:1 master=table", "table:1 master=figure"] }

/-- The entries of the one document when its ranges have been added. -/
def addedEntries? (s₀ : Resolution) : Option (List RangeEntry) := do
  let info ← s₀.info? "/doc"
  match info.ranges.forM (Run.provideRange (info.root.getD "/doc") "/doc" info.document.settings)
    s₀ with
  | .ok _ s₁ => s₁.roots.lookup "/doc"
  | .error .. => none

theorem exists_of_addedEntries? {s₀ : Resolution} {entries : List RangeEntry}
    (h : addedEntries? s₀ = some entries) : ∃ info s₁, s₀.info? "/doc" = some info ∧
      info.ranges.forM (Run.provideRange (info.root.getD "/doc") "/doc" info.document.settings) s₀ =
        .ok () s₁ ∧ s₁.roots.lookup "/doc" = some entries := by
  obtain ⟨info, hinfo, h⟩ := Option.bind_eq_some_iff.1 h
  cases hrun : info.ranges.forM (Run.provideRange (info.root.getD "/doc") "/doc"
    info.document.settings) s₀ with
  | ok _ s₁ =>
    rw [hrun] at h
    exact ⟨info, s₁, hinfo, hrun, h⟩
  | error e t =>
    rw [hrun] at h
    cases h

/-- Labels of tables are bound before those of figures, and a cycle of both is reported. -/
theorem masters_checked_figures :
    (∃ s₀ s entries order pre e post,
      figuresByTable.beforeRanges figuresByTable.start = .ok () s₀ ∧
      Run.resolveRanges s₀ = .ok () s ∧ s.roots.lookup "/doc" = some entries ∧
      MastersFirst entries order ∧ order = pre ++ e :: post ∧ e.typ = "figure" ∧
      "table" ∈ pre.map RangeEntry.typ) ∧
    ∃ s₀ e t entries, cyclicMasters.beforeRanges cyclicMasters.start = .ok () s₀ ∧
      addedEntries? s₀ = some entries ∧ ¬MastersAcyclic entries ∧
      cyclicMasters.resolve = .error e t ∧ ReportsMaster entries e := by
  constructor
  · obtain ⟨_, s, hrun, hranges⟩ := exists_ok_and
      (m := do figuresByTable.beforeRanges; Run.resolveRanges) (s := figuresByTable.start)
      (P := fun _ s => (s.roots.lookup "/doc").map (·.map fun e => (e.typ, e.master)) =
        some [("figure", some "table"), ("table", none)]) (by decide +kernel)
    obtain ⟨_, s₀, hs₀, hs⟩ := exists_of_bind_ok hrun
    obtain ⟨entries, hentries, hmap⟩ := Option.map_eq_some_iff.1 hranges
    obtain ⟨_, -, -, -, -, hroots⟩ := ((single_described ..).masters_checked hs₀).1 s hs
    obtain ⟨-, -, order, -, hfirst, -⟩ := hroots _ _ hentries
    have hfigure : ("figure", some "table") ∈ entries.map fun e => (e.typ, e.master) := by
      simp [hmap]
    obtain ⟨e, he, heq⟩ := List.mem_map.1 hfigure
    obtain ⟨htyp, hm⟩ := Prod.mk.inj heq
    obtain ⟨pre, post, hsplit⟩ := List.append_of_mem (hfirst.perm.mem_iff.2 he)
    exact ⟨s₀, s, entries, order, pre, e, post, hs₀, hs, hentries, hfirst, hsplit, htyp,
      hfirst.first pre e post hsplit "table" hm⟩
  · obtain ⟨_, s₀, hs₀, horder, hadded⟩ := exists_ok_and (m := cyclicMasters.beforeRanges)
      (s := cyclicMasters.start) (P := fun _ s₀ => s₀.order = ["/doc"] ∧
        (addedEntries? s₀).map (·.map fun e => (e.typ, e.master)) =
          some [("figure", some "table"), ("table", some "figure")]) (by decide +kernel)
    obtain ⟨entries, hentries, hmap⟩ := Option.map_eq_some_iff.1 hadded
    obtain ⟨info, s₁, hinfo, hadd, hlookup⟩ := exists_of_addedEntries? hentries
    have hfollows : ∀ typ master, (typ, some master) ∈ entries.map (fun e => (e.typ, e.master)) →
        Follows entries typ master := fun typ master hmem => by
      obtain ⟨e, he, heq⟩ := List.mem_map.1 hmem
      obtain ⟨htyp, hm⟩ := Prod.mk.inj heq
      exact ⟨e, he, htyp, hm⟩
    have hcycle : ¬MastersAcyclic entries := fun hacyclic => by
      refine hacyclic "figure" (.head (hfollows "figure" "table" ?_)
        (.single (hfollows "table" "figure" ?_))) <;> simp [hmap]
    obtain ⟨e, t, -, hresolve, hreports⟩ := ((single_described ..).masters_checked hs₀).2.1 []
      "/doc" [] s₀ info s₁ "/doc" entries horder rfl hinfo hadd hlookup (.inr hcycle)
    exact ⟨s₀, e, t, entries, hs₀, hentries, hcycle, hresolve, hreports⟩

end Collection

end Folio
