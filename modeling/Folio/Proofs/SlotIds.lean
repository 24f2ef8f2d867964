import Folio.Proofs.Figures
import Folio.Proofs.Forest
import Folio.Proofs.Resolution.Equipped
import Folio.Proofs.Resolution.Turns

/-!
# Slots have the ids of their entries

Labeled nodes are counted twice. Registration gives them ids, for which the frames keep count, and
claiming gives them slots, for which the ranges do. In a root both come out the same, however its
label types are nested and its blocks expanded (`Collection.Described.slot_id_eq`), because both
count as one tally does on the walk through the document. In a document that is embedded they need
not: its ids start from one, and its slots lie behind the slot that was handed over to it.
-/

namespace Folio

open Resolution

namespace Run

variable {c : Collection} {W : List (String × List Visit)} {s₀ : Resolution}

/-- All documents have had their turn: the entries of roots have slots with their ids. -/
theorem claimAll_matched (hp : Prepared c W s₀) (ho : s₀.Ordered)
    (hn : ∀ d info, s₀.info? d = some info → s₀.Numbered s₀ d info) :
    After True (s₀.order.forM (claimVisits W)) s₀ fun _ t => ∀ d info, s₀.info? d = some info →
      info.embeddedBy = none → Matched W s₀ t d := by
  have hsound : s₀.numbering.layout.Sound := by
    rw [hp.numbering]
    exact .empty
  refine (After.forM_split (J := fun pre post t => s₀.Progress t ∧ t.numbering.layout.Sound ∧
    ∀ d info, s₀.info? d = some info → info.embeddedBy = none →
      (d ∈ pre → Matched W s₀ t d) ∧ (d ∈ post → s₀.Untouched t d)) ?_
    ⟨.refl s₀, hsound, fun d info hd hby => ⟨fun h => (List.not_mem_nil h).elim, fun _ => ?_⟩⟩).mono
      fun _ t ⟨_, _, h⟩ d info hd hby =>
        (h d info hd hby).1 (hp.mem_order_iff.2 (by rw [hd]; rfl))
  · rintro pre e post t hsplit ⟨ht, hs, h⟩
    obtain ⟨info, he⟩ := Option.isSome_iff_exists.1 (hp.mem_order_iff.1
      (show e ∈ s₀.order by simp [← hsplit]))
    obtain ⟨vs, hw⟩ := hp.exists_walk he
    have hown : After True (claimVisits W e) t fun _ t' =>
        info.embeddedBy = none → Matched W s₀ t' e := by
      by_cases hby : info.embeddedBy = none
      · have hu := (h e info he hby).2 (List.mem_cons_self ..)
        exact (claimVisits_matched hp ho ht hs he hby (hn e info he) hu).mono fun _ _ h _ => h
      · exact After.trivial fun _ _ _ h => (hby h).elim
    have hnodup := hp.nodup_order
    have hpairwise := hp.pairwise_order
    rw [← hsplit] at hnodup hpairwise
    refine ((claimVisits_progress hp ht hs e).and ((claimVisits_turn hp ht hs hw).and hown)).mono ?_
    rintro _ t' ⟨⟨hprogress, hs'⟩, hturn, hmatched⟩
    refine ⟨ht.trans hprogress, hs', fun d info' hd hby => ⟨fun hmem => ?_, fun hmem => ?_⟩⟩
    · rcases List.mem_append.1 hmem with hpre | hlast
      · refine ((h d info' hd hby).1 hpre).turn hp hturn ?_
        rintro rfl
        exact (List.nodup_append.1 hnodup).2.2 d hpre d (List.mem_cons_self ..) rfl
      · cases List.mem_singleton.1 hlast
        cases he.symm.trans hd
        exact hmatched hby
    · refine ((h d info' hd hby).2 (List.mem_cons_of_mem e hmem)).turn hturn hd hby ?_
      exact (List.pairwise_cons.1 (List.pairwise_append.1 hpairwise).2.1).1 d hmem
  · obtain ⟨root, -, hrooted, hmem⟩ := hp.root d info hd
    obtain rfl := hrooted.unique (.top hd hby)
    obtain ⟨entries, hentries⟩ := Table.mem_keys_iff.1 hmem
    obtain ⟨rfl, -⟩ := hp.roots _ entries hentries
    exact ⟨hentries, rfl, fun _ _ hf _ => hf⟩

end Run

namespace Resolved

variable {c : Collection} {W : List (String × List Visit)} {s₀ s₁ s₂ s : Resolution}

/-- Entries stand where they stood when all slots were claimed. -/
theorem entryAt (h : Resolved c W s₀ s₁ s₂ s) {e : EntryId} {id : LabelId} (hat : s₁.EntryAt e id) :
    s.EntryAt e id := by
  obtain ⟨entry, q, he, hq, t, ht, hid⟩ := hat
  obtain ⟨title, he'⟩ := h.settled.title e entry (by rw [h.bound.same]; exact he)
  obtain ⟨label, ht'⟩ := h.bound.relabeled.slot q t ht
  rw [← h.numbering_eq] at ht'
  exact ⟨_, q, he', hq, _, ht', hid⟩

end Resolved

/-- Registration numbers the documents that are claimed. -/
theorem Underlies.numbered {c : Collection} {W : List (String × List Visit)} {s₁ s : Resolution}
    (h : Underlies c W s₁ s) (hc : c.Described) : s.Ordered ∧
      ∀ d info, s.info? d = some info → s.Numbered s d info := by
  obtain ⟨s₂, ho, hr⟩ := h.arranged
  have hkeeps : s₁.Keeps s := ho.keeps.trans hr.keeps
  have hordered : s.Ordered := by
    obtain ⟨_, -, hequipped⟩ := hc.registerAll_ends.of_ok h.registered
    have hframes : s.frames = s₁.frames := by rw [hr.same, ho.same]
    intro f frame p hf
    rw [frame?, hframes] at hf
    exact hequipped.proper.ordered f frame p hf
  refine ⟨hordered, fun d info hd => ?_⟩
  obtain ⟨info₁, hinfo₁, requests, embeddedBy, root, rfl, -⟩ := hr.exists_registered ho hd
  exact (hc.registerAll_numbered.of_ok h.registered s hordered hkeeps d info₁ hinfo₁).keeps hkeeps

/-- Every labeled node of a root has a slot with the id that was given to the node when it was
registered. -/
theorem Collection.Described.slot_id_eq {c : Collection} {s : Resolution} (h : c.Described)
    (hs : c.resolve = .ok () s) {d : String} {info : DocumentInfo} (hd : s.info? d = some info)
    (hroot : info.embeddedBy = none) :
    ∃ vs, Walk s info.frame info.document.nodes vs ∧ ∀ f heading e inner,
      .heading f heading e inner ∈ vs → ∃ entry q slot, s.registry.entryAt? e = some entry ∧
        entry.slot = some q ∧ s.numbering.layout.slot? q = some slot ∧ slot.id = entry.id := by
  obtain ⟨W, -, s₀, s₁, s₂, -, hr, hmatched⟩ := h.underlies_spec
    (J := fun W _ s₀ t => ∀ d info, s₀.info? d = some info → info.embeddedBy = none →
      Matched W s₀ t d)
    (fun W sᵣ s₀ hu => Run.claimAll_matched hu.prepared (hu.numbered h).1 (hu.numbered h).2) hs
  obtain ⟨info₀, hinfo₀, heq⟩ := hr.exists_info hd
  obtain ⟨vs, hw⟩ := hr.prepared.exists_walk hinfo₀
  obtain ⟨info₀', hinfo₀', hwalk, -⟩ := hr.prepared.walk d vs hw
  cases hinfo₀.symm.trans hinfo₀'
  rw [heq] at hroot ⊢
  refine ⟨vs, hwalk.keeps hr.keeps, fun f heading e inner hv => ?_⟩
  obtain ⟨id, hid, hat⟩ := hmatched d info₀ hinfo₀ hroot vs hw e
    (List.mem_filterMap.2 ⟨_, hv, rfl⟩)
  obtain ⟨entry, he, hentry⟩ := hid.keeps hr.keeps
  obtain ⟨entry', q, he', hq, slot, hslot, hslotid⟩ := hr.entryAt hat
  cases he.symm.trans he'
  exact ⟨entry, q, slot, he, hq, hslot, hslotid.trans hentry.symm⟩

/-- The sections and figures of a document that embeds another one before its last figures. -/
theorem slot_id_eq_returning : ∃ s info vs, Figures.returningDocuments.resolve = .ok () s ∧
    s.info? "/a" = some info ∧ info.embeddedBy = none ∧
    Walk s info.frame info.document.nodes vs ∧ ∀ f heading e inner,
      .heading f heading e inner ∈ vs → ∃ entry q slot, s.registry.entryAt? e = some entry ∧
        entry.slot = some q ∧ s.numbering.layout.slot? q = some slot ∧ slot.id = entry.id := by
  obtain ⟨s, hs, hroot⟩ := Figures.returningDocuments.exists_resolve_and
    (P := fun s => (s.info? "/a").map DocumentInfo.embeddedBy = some none) (by decide +kernel)
  obtain ⟨info, hinfo, hby⟩ := Option.map_eq_some_iff.1 hroot
  obtain ⟨vs, hw, hall⟩ :=
    Figures.returningDocuments_describedBy.described.slot_id_eq hs hinfo hby
  exact ⟨s, info, vs, hs, hinfo, hby, hw, hall⟩

end Folio
