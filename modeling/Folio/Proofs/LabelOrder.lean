import Folio.Proofs.MasterChecks
import Folio.Proofs.Numbering.Commuting
import Folio.Proofs.Resolution.Origins

/-!
# The order of masters makes no difference

Labels of ranges that were made at the top can be created in any order. Each call fails or succeeds
as it does without the others, and in the end all slots have the same labels and names, even if the
slots of one range lead those of another.

A resolution takes masters before the types that follow them. It might as well take the ranges of
all roots in any other order (`Numbering.createLabels_unordered`).
-/

namespace Folio

open Resolution RangeEntry Folio.Numbering

/-- The ranges of all root documents, root by root. -/
def Resolution.topRanges (s : Resolution) (roots : List String) : List RangeId :=
  roots.flatMap fun root => ((s.roots.lookup root).getD []).map RangeEntry.range

/-- Creates labels for ranges one after the other, with their own rules. -/
def Resolution.bindAll (s : Resolution) (ranges : List RangeId) : Resolution :=
  { s with numbering := s.numbering.run (ranges.map (.createLabels · none)) }

namespace Run

variable {c : Collection} {W : List (String × List Visit)} {J : String → Resolution → Prop}
  {s₀ s : Resolution}

theorem bindEntry_spec (e : RangeEntry) :
    After True (bindEntry e) s fun _ s' => s' = s.bindAll [e.range] := by
  unfold bindEntry
  rw [After.bind_iff, After.get_iff]
  cases h : s.numbering.createLabels e.range none with
  | error cause => exact trivial
  | ok n =>
    change _ = { s with numbering := s.numbering.perform (.createLabels e.range none) }
    rw [perform, attempt, h]

theorem bindOrder_spec (order : List RangeEntry) :
    After True (order.forM bindEntry) s fun _ s' =>
      s' = s.bindAll (order.map RangeEntry.range) := by
  refine (After.forM_split (J := fun pre _ s' => s' = s.bindAll (pre.map RangeEntry.range))
    ?_ rfl)
  rintro pre e post _ - rfl
  refine (bindEntry_spec e).mono fun _ s' h => ?_
  rw [h]
  simp [bindAll, run]

/-- Labels are created for the ranges of all roots, in some order. -/
theorem bindRoots_order (hd : s.Distinct) (hm : ∀ root entries, s.roots.lookup root = some entries →
    MastersKnown entries ∧ MastersAcyclic entries) (roots : List String) :
    After True (bindRoots roots) s fun _ s' =>
      ∃ ranges, ranges.Perm (s.topRanges roots) ∧ s' = s.bindAll ranges := by
  unfold bindRoots
  refine After.forM_split (J := fun pre _ s' =>
    ∃ ranges, ranges.Perm (s.topRanges pre) ∧ s' = s.bindAll ranges) ?_ ⟨[], .nil, rfl⟩
  rintro pre root post _ - ⟨ranges, hperm, rfl⟩
  rw [After.bind_iff, After.get_iff]
  dsimp only
  have hroots : (s.bindAll ranges).roots = s.roots := rfl
  rw [hroots, After.bind_iff]
  cases hlookup : s.roots.lookup root with
  | none => exact ⟨ranges, by simpa [topRanges, hlookup] using hperm, rfl⟩
  | some entries =>
    obtain ⟨hknown, hacyclic⟩ := hm root entries hlookup
    obtain ⟨order, done, hfirst, heq⟩ := bindEntries_eq (hd root entries hlookup) hknown hacyclic
    rw [Option.getD_some, heq, After.bind_iff]
    refine (bindOrder_spec order).mono ?_
    rintro _ _ rfl
    refine ⟨ranges ++ order.map RangeEntry.range, ?_, by simp [bindAll, run]⟩
    simpa [topRanges, hlookup] using hperm.append (hfirst.perm.map RangeEntry.range)

/-- What is kept while slots are claimed holds when all roots are claimed. -/
theorem claimRoots_spec (hp : Prepared c W s₀) (hJ : Claiming.Invariant W s₀ J) :
    After True (s₀.roots.keys.forM (claimDocument (s₀.documents.length + 1))) s₀
      fun _ s => ∃ e, J e s := by
  obtain ⟨hprogress, hsound⟩ := hJ.progress "" s₀ (hJ.start "")
  refine (claimDocuments_of_order (fun root _ s hs hsound Q h =>
    claimDocument_of_order hp _ root (.inl fun _ => trivial) hs hsound h) hprogress hsound
    ((claimAll_spec hp hJ).mono fun _ _ h => h.1)).mono fun _ _ h => h.2.2

end Run

theorem Resolution.Configured.atTop {s₀ s : Resolution} (h : s₀.Configured s) {roots : List String}
    {i : RangeId} (hi : i ∈ s.topRanges roots) : s.numbering.layout.AtTop i := by
  obtain ⟨root, -, hi⟩ := List.mem_flatMap.1 hi
  obtain ⟨e, he, rfl⟩ := List.mem_map.1 hi
  cases hlookup : s.roots.lookup root with
  | none => simp [hlookup] at he
  | some entries =>
    rw [hlookup] at he
    obtain ⟨r, _, _, _, hr, hp, -⟩ := h root entries e hlookup he
    exact ⟨r, hr, hp⟩

/-- Once slots are claimed, labels are bound to those of all ranges, in any order. -/
theorem Collection.Described.resolveRanges_unordered {c : Collection} (h : c.Described)
    {s₀ s : Resolution} (hs₀ : c.beforeRanges c.start = .ok () s₀)
    (hs : Run.resolveRanges s₀ = .ok () s) : ∃ s₁,
      s₀.roots.keys.forM (Run.claimDocument (s₀.documents.length + 1)) s₀ = .ok () s₁ ∧
      ∀ ranges, ranges.Perm (s₁.topRanges s₁.roots.keys) → s = s₁.bindAll ranges := by
  obtain ⟨W, hp⟩ := h.exists_prepared hs₀
  obtain ⟨s₁, hclaim, hmastered, hbind⟩ := hp.exists_mastered hs
  obtain ⟨_, hdeclared⟩ := (Run.claimRoots_spec hp hp.declared).of_ok hclaim
  obtain ⟨order, horder, rfl⟩ :=
    (Run.bindRoots_order hmastered.distinct hmastered.masters _).of_ok hbind
  refine ⟨s₁, hclaim, fun ranges hranges => ?_⟩
  rw [hmastered.progress.root_keys] at hranges
  have hrun := run_createLabels_perm (horder.trans hranges.symm) hmastered.sound
    (fun i hi => hdeclared.configured.atTop (horder.mem_iff.1 hi)) fun _ => none
  rw [bindAll, bindAll, hrun]

/-- Creating the labels of two ranges gives the same in either order, and a resolution might take
the ranges of all roots in any order. -/
theorem Numbering.createLabels_unordered :
    (∀ ops i j, Makes ops i → Makes ops j → i ≠ j → ∀ a b : Option LabelRule,
      let n := run {} ops
      (n.perform (.createLabels i a)).outcome j b = n.outcome j b ∧
      (n.perform (.createLabels j b)).outcome i a = n.outcome i a ∧
      (n.perform (.createLabels i a)).perform (.createLabels j b) =
        (n.perform (.createLabels j b)).perform (.createLabels i a) ∧
      ∀ q, ((n.perform (.createLabels i a)).perform (.createLabels j b)).layout.name q =
        ((n.perform (.createLabels j b)).perform (.createLabels i a)).layout.name q) ∧
    ∀ c : Collection, c.Described → ∀ s₀ s, c.beforeRanges c.start = .ok () s₀ →
      Run.resolveRanges s₀ = .ok () s → ∃ s₁,
        s₀.roots.keys.forM (Run.claimDocument (s₀.documents.length + 1)) s₀ = .ok () s₁ ∧
        ∀ ranges, ranges.Perm (s₁.topRanges s₁.roots.keys) → s = s₁.bindAll ranges := by
  refine ⟨fun ops i j hi hj hne a b => ?_, fun c h s₀ s hs₀ hs => h.resolveRanges_unordered hs₀ hs⟩
  have hcomm := perform_createLabels_comm (ordered_run ops).toSound hi.atTop hj.atTop hne a b
  exact ⟨outcome_perform _ i j a b, outcome_perform _ j i b a, hcomm, fun q => by rw [hcomm]⟩

/-- A figure below a table has the label of the table in front, also when it gets its own first. -/
theorem Numbering.createLabels_unordered_figures :
    (let ops : List Operation := [.newRange "table" "" none,
        .newRange "figure" "" (some (Lead.ofMaster "table" none)),
        .setRule ⟨0⟩ "" (some (.numbered "table" none)),
        .setRule ⟨1⟩ "-" (some (.numbered "figure" none)),
        .setActive [("table", ⟨0⟩)], .next ⟨0⟩, .next ⟨1⟩]
      ∀ order : List RangeId, order = [⟨0⟩, ⟨1⟩] ∨ order = [⟨1⟩, ⟨0⟩] →
        ((run {} ops).run (order.map (.createLabels · none))).layout.name ⟨1⟩ = some "1-1") ∧
    ∃ s₀ s s₁ : Resolution,
      Collection.figuresByTable.beforeRanges Collection.figuresByTable.start = .ok () s₀ ∧
      Run.resolveRanges s₀ = .ok () s ∧ (s₁.topRanges s₁.roots.keys).length = 2 ∧
      s = s₁.bindAll (s₁.topRanges s₁.roots.keys).reverse := by
  constructor
  · intro ops order horder
    have htable : Makes ops ⟨0⟩ := ⟨[], _, _, _, _, rfl, rfl⟩
    have hfigure : Makes ops ⟨1⟩ := ⟨[.newRange "table" "" none], _, _, _, _, rfl, rfl⟩
    have hname : ((run {} ops).run [.createLabels ⟨0⟩ none, .createLabels ⟨1⟩ none]).layout.name
        ⟨1⟩ = some "1-1" := by decide +kernel
    obtain ⟨-, -, -, hsame⟩ :=
      createLabels_unordered.1 ops ⟨0⟩ ⟨1⟩ htable hfigure (by decide) none none
    rcases horder with rfl | rfl
    · exact hname
    · exact (hsame ⟨1⟩).symm.trans hname
  · obtain ⟨_, s, hrun, hranges⟩ := exists_ok_and
      (m := do Collection.figuresByTable.beforeRanges; Run.resolveRanges)
      (s := Collection.figuresByTable.start)
      (P := fun _ s => (s.topRanges s.roots.keys).length = 2) (by decide +kernel)
    obtain ⟨_, s₀, hs₀, hs⟩ := exists_of_bind_ok hrun
    obtain ⟨s₁, -, hany⟩ :=
      createLabels_unordered.2 _ (Collection.single_described ..) s₀ s hs₀ hs
    have heq := hany _ (List.reverse_perm _)
    exact ⟨s₀, s, s₁, hs₀, hs, by simpa [heq, bindAll, topRanges] using hranges, heq⟩

end Folio
