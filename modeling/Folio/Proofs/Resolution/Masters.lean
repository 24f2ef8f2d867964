import Folio.Proofs.Resolution.Slots

/-!
# Masters of label types

The label types of a root follow one another (`RangeEntry.Follows`). Before slots are claimed in a
document, the way from each type to its master, the master of that, and so on is gone. It comes to
an end for every type exactly if all masters are known and no type follows itself at some distance.
Otherwise the check fails, and the error says why (`Run.checkEntries_ends`).

Types on the way are different ones, since a root has one entry for each type (`Distinct`).
-/

namespace Folio

namespace RangeEntry

variable {entries : List RangeEntry}

/-- A label type has another one as its master. -/
def Follows (entries : List RangeEntry) (typ master : String) : Prop :=
  ∃ e ∈ entries, e.typ = typ ∧ e.master = some master

/-- Every master is the label type of an entry. -/
def MastersKnown (entries : List RangeEntry) : Prop :=
  ∀ typ master, Follows entries typ master → master ∈ entries.map RangeEntry.typ

/-- No label type leads back to itself. -/
def MastersAcyclic (entries : List RangeEntry) : Prop :=
  ∀ typ, ¬Relation.TransGen (Follows entries) typ typ

/-- Label types from one of them back to itself, each with the next one as its master. -/
structure MasterCycle (entries : List RangeEntry) (cycle : List String) : Prop where
  closed : ∃ typ between, cycle = typ :: (between ++ [typ])
  chain : cycle.IsChain (Follows entries)

/-- The error tells an unknown master of an entry, or a cycle of masters. -/
inductive ReportsMaster (entries : List RangeEntry) : ResolveError → Prop
  | unknown {e : RangeEntry} {master : String} (he : e ∈ entries) (hm : e.master = some master)
    (hnew : master ∉ entries.map RangeEntry.typ) :
    ReportsMaster entries (.located e.location (.unknownMaster e.typ master))
  | cycle {location : Location} {cycle : List String} (h : MasterCycle entries cycle) :
    ReportsMaster entries (.located location (.masterCycle cycle))

theorem eq_of_typ_eq (hnodup : (entries.map RangeEntry.typ).Nodup) {e e' : RangeEntry}
    (he : e ∈ entries) (he' : e' ∈ entries) (h : e.typ = e'.typ) : e = e' :=
  List.inj_on_of_nodup_map hnodup he he' h

/-- The way from a label type upwards comes to an end. -/
def Grounded (entries : List RangeEntry) : String → Prop :=
  Acc fun master typ => Follows entries typ master

/-- A type from which the way upwards comes to an end is not above itself. -/
theorem Grounded.not_transGen {typ : String} (h : Grounded entries typ) :
    ¬Relation.TransGen (Follows entries) typ typ := by
  have hacc := Acc.transGen h
  clear h
  rw [← Relation.transGen_swap]
  intro hcycle
  induction hacc with
  | intro typ _ ih => exact ih typ hcycle hcycle

theorem mastersAcyclic_of_grounded (h : ∀ e ∈ entries, Grounded entries e.typ) :
    MastersAcyclic entries := by
  intro typ hcycle
  obtain ⟨_, ⟨e, he, rfl, -⟩, -⟩ := Relation.TransGen.head'_iff.1 hcycle
  exact (h e he).not_transGen hcycle

end RangeEntry

namespace Run

open RangeEntry

variable {s : Resolution} {entries : List RangeEntry}

theorem masterEntry_reports {entry : RangeEntry} (he : entry ∈ entries) {master : String}
    (hm : entry.master = some master) : Ends (ReportsMaster entries)
      (masterEntry entries entry master) s fun entry' s' =>
        s' = s ∧ entry' ∈ entries ∧ entry'.typ = master := by
  unfold masterEntry
  rw [ends_orFail_iff]
  refine ⟨fun entry' h => ⟨rfl, List.mem_of_find?_eq_some h, by simpa using List.find?_some h⟩,
    fun hnone => .unknown he hm fun hmem => ?_⟩
  obtain ⟨e, he, rfl⟩ := List.mem_map.1 hmem
  simpa using List.find?_eq_none.1 hnone e he

/-- A type that is on the way already closes a cycle. -/
theorem followMaster_reports {trail : Trail} {entry : RangeEntry}
    (hchain : (trail.entries ++ [entry.typ]).IsChain (Follows entries)) :
    Ends (ReportsMaster entries) (followMaster trail entry) s fun trail' s' =>
      s' = s ∧ trail'.entries = trail.entries ++ [entry.typ] := by
  unfold followMaster
  cases hadd : trail.add? entry.typ with
  | error cycle =>
    obtain ⟨⟨between, hclosed⟩, hsuffix⟩ := Trail.add?_eq_error hadd
    exact .cycle ⟨⟨_, between, hclosed⟩, hchain.suffix hsuffix⟩
  | ok trail' =>
    unfold Trail.add? at hadd
    split at hadd <;> cases hadd
    exact ⟨rfl, rfl⟩

/-- The way from the type of an entry to its master, the master of that, and so on comes to an end,
or the check of the entry fails. -/
theorem checkMasters_reports (hnodup : (entries.map RangeEntry.typ).Nodup) {fuel : Nat}
    {trail : Trail} {entry : RangeEntry} (he : entry ∈ entries)
    (ht : trail.entries ⊆ entries.map RangeEntry.typ)
    (hchain : (trail.entries ++ [entry.typ]).IsChain (Follows entries))
    (hfuel : entries.length < fuel + trail.entries.length) :
    Ends (ReportsMaster entries) (checkMasters entries fuel trail entry) s fun _ s' => s' = s ∧
      Grounded entries entry.typ ∧
      ∀ master, entry.master = some master → master ∈ entries.map RangeEntry.typ := by
  induction fuel generalizing trail entry with
  | zero =>
    have := length_le_of_subset ht
    omega
  | succ fuel ih =>
    -- the master of the entry is the only one that its type follows
    have honly : ∀ master, Follows entries entry.typ master → entry.master = some master := by
      rintro master ⟨e, he', htyp, hm⟩
      rwa [← eq_of_typ_eq hnodup he' he htyp]
    unfold checkMasters
    rw [Ends.bind_iff]
    refine (followMaster_reports hchain).mono ?_
    rintro trail' _ ⟨rfl, htrail⟩
    cases hm : entry.master with
    | none =>
      refine ⟨rfl, .intro _ fun master hf => ?_, fun _ h => by cases h⟩
      cases hm.symm.trans (honly master hf)
    | some master =>
      dsimp only
      rw [Ends.bind_iff]
      refine (masterEntry_reports he hm).mono ?_
      rintro entry' _ ⟨rfl, he', rfl⟩
      have hnext : (trail'.entries ++ [entry'.typ]).IsChain (Follows entries) := by
        rw [htrail]
        refine List.isChain_append.2 ⟨hchain, .singleton _, fun typ htyp typ' htyp' => ?_⟩
        cases List.getLast?_concat.symm.trans htyp
        cases htyp'
        exact ⟨entry, he, rfl, hm⟩
      refine (ih he' ?_ hnext (by simp [htrail]; omega)).mono ?_
      · rw [htrail]
        exact List.append_subset.2 ⟨ht, by simpa using ⟨entry, he, rfl⟩⟩
      · rintro _ s' ⟨hs', hends, -⟩
        refine ⟨hs', .intro _ fun master hf => ?_, fun master h => ?_⟩
        · cases hm.symm.trans (honly master hf)
          exact hends
        · cases h
          exact List.mem_map_of_mem he'

/-- The masters of a root are known and form no cycle, or the check of its entries fails and tells
what is wrong. -/
theorem checkEntries_ends (hnodup : (entries.map RangeEntry.typ).Nodup) :
    Ends (ReportsMaster entries) (entries.forM (checkMasters entries (entries.length + 1) {})) s
      fun _ s' => s' = s ∧ MastersKnown entries ∧ MastersAcyclic entries := by
  refine (Ends.forM_split (J := fun pre _ t => t = s ∧ ∀ e ∈ pre, Grounded entries e.typ ∧
    ∀ master, e.master = some master → master ∈ entries.map RangeEntry.typ)
    ?_ ⟨rfl, by simp⟩).mono ?_
  · rintro pre entry post t hsplit ⟨rfl, hpre⟩
    refine (checkMasters_reports hnodup (by simp [← hsplit]) (List.nil_subset _) (.singleton _)
      (Nat.lt_succ_self _)).mono ?_
    rintro _ _ ⟨rfl, hentry⟩
    refine ⟨rfl, fun e he => ?_⟩
    rcases List.mem_append.1 he with he | he
    · exact hpre e he
    · cases List.mem_singleton.1 he
      exact hentry
  · rintro _ s' ⟨hs', hall⟩
    refine ⟨hs', ?_, mastersAcyclic_of_grounded fun e he => (hall e he).1⟩
    rintro typ master ⟨e, he, rfl, hm⟩
    exact (hall e he).2 master hm

end Run

end Folio
