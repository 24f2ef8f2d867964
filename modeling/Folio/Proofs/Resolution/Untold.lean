import Folio.Proofs.Resolution.Rounds
import Folio.Proofs.Resolution.Steady

/-!
# Before texts are found

Once labels are bound, all that passes need is there, and no text is found yet
(`Resolution.Untold`). That is the state in which the passes begin: the phases before them lead there
or fail externally (`Collection.Described.beforeValues_ends`), and no text that is kept can be wrong
(`Untold.sought`).
-/

namespace Folio

open Resolution

namespace Resolution

variable {c : Collection} {W : List (String × List Visit)} {s s' : Resolution}

theorem Keeps.scopeOf (h : s.Keeps s') (hsize : s'.frames.size = s.frames.size) (f : FrameId) :
    s'.scopeOf f = s.scopeOf f := by
  cases hf : s.frame? f with
  | some frame =>
    obtain ⟨frame', hf', ha⟩ := h.frame f frame hf
    rw [scopeOf_eq hf, scopeOf_eq hf', ha.2.2.1]
  | none =>
    have hf' : s'.frame? f = none := by
      unfold frame? at hf ⊢
      rw [Array.getElem?_eq_none_iff] at hf ⊢
      omega
    rw [Resolution.scopeOf, Resolution.scopeOf, hf, hf']

/-- Labels are bound, and no text is found yet. The walks `W` are those of all documents. -/
structure Untold (W : List (String × List Visit)) (s : Resolution) : Prop
    extends s.Laid (W.flatMap Prod.snd) where
  paths : W.map Prod.fst = s.documents.keys
  ascending : s.documents.keys.Pairwise (· < ·)
  walk : ∀ path vs, (path, vs) ∈ W → ∃ info, s.info? path = some info ∧
    Walk s info.frame info.document.nodes vs
  untitled : ∀ e entry, s.registry.entryAt? e = some entry → entry.title = none
  textless : ∀ v ∈ W.flatMap Prod.snd, s.textAt? v = none

/-- No two visits keep their texts in one place. -/
theorem nodup_place? {vs : List Visit} (hentries : (vs.filterMap Visit.entry?).Nodup)
    (hsites : (vs.filterMap s.site?).Nodup) : (vs.filterMap s.place?).Nodup := by
  unfold List.Nodup at *
  rw [List.pairwise_filterMap] at *
  refine (hentries.and hsites).imp fun {v w} ⟨he, hs⟩ p hp q hq heq => ?_
  cases v with
  | heading f h entry inner =>
    cases hp
    cases w with
    | heading f' h' entry' inner' =>
      cases hq
      cases heq
      exact he entry rfl entry rfl rfl
    | term f' key' location content =>
      cases hq
      cases heq
    | text | embedding | expansion => cases hq
  | term f key location content =>
    cases hp
    cases w with
    | heading f' h' entry' inner' =>
      cases hq
      cases heq
    | term f' key' location' content' =>
      cases hq
      obtain ⟨hscope, rfl⟩ := TextPlace.term.inj heq
      exact hs (s.scopeOf f, key) rfl (s.scopeOf f', key) rfl (by rw [hscope])
    | text | embedding | expansion => cases hq
  | text | embedding | expansion => cases hp

theorem Keeps.site?_eq (h : s.Keeps s') (hsize : s'.frames.size = s.frames.size) :
    s'.site? = s.site? := by
  funext v
  cases v with
  | term f key location content => simp [site?, h.scopeOf hsize]
  | _ => rfl

/-- Claiming gives no titles. -/
theorem Progress.untitled (h : s.Progress s')
    (hnone : ∀ e entry, s.registry.entryAt? e = some entry → entry.title = none) :
    ∀ e entry, s'.registry.entryAt? e = some entry → entry.title = none := by
  intro e entry he
  have hlt : e.index < s.registry.entries.size := by
    rw [← h.entries_size]
    exact (Array.getElem?_eq_some_iff.1 he).1
  have hold : s.registry.entryAt? e = some s.registry.entries[e.index] :=
    Array.getElem?_eq_getElem hlt
  obtain ⟨slot, abbreviation, hnew, -⟩ := h.slots e _ hold
  have htitle := hnone e _ hold
  cases he.symm.trans hnew
  exact htitle

/-- Where states are recalled and no title is kept, a visit without a text gets none. -/
theorem Recalls.textless (h : Recalls NodeState.untargeted s s')
    (huntitled : ∀ e entry, s'.registry.entryAt? e = some entry → entry.title = none) {v : Visit}
    (hv : s.Sighted v) (hnone : s.textAt? v = none) : s'.textAt? v = none := by
  cases v with
  | heading f heading entry inner =>
    change (s'.registry.entryAt? entry).bind Entry.title = none
    cases he : s'.registry.entryAt? entry with
    | none => rfl
    | some e => exact huntitled entry e he
  | term f key location content =>
    obtain ⟨-, text, hst⟩ := hv
    obtain ⟨st', hst', heq⟩ := h f key _ hst
    have htext : text = none := by
      change s.textIn? (.term (s.scopeOf f) key) = none at hnone
      change s.stateIn? (s.scopeOf f) key = _ at hst
      rwa [textIn?, hst] at hnone
    subst htext
    cases st' <;> simp [NodeState.untargeted] at heq
    change s'.textIn? (.term (s'.scopeOf f) key) = none
    change s'.stateIn? (s'.scopeOf f) key = _ at hst'
    rw [textIn?, hst']
    exact heq
  | text | embedding | expansion => rfl

theorem Untold.of_steady {P : SlotId → Prop} {s₀ s₁ : Resolution} (hp : Prepared c W s₀)
    (hsupplied : s₀.Supplied (W.flatMap Prod.snd)) (h : s₀.Steady s₁) (hb : s₁.Bound s P) :
    s.Untold W := by
  have hkeeps := h.progress.toKeeps.trans hb.keeps
  have hsize : s.frames.size = s₀.frames.size := by
    rw [hb.same]
    exact h.progress.frames_size
  have hrecalls : Recalls NodeState.untargeted s₀ s := by
    rw [hb.same]
    exact h.recalls
  have hdocuments : s.documents = s₁.documents := by rw [hb.same]
  have hwalk : ∀ path vs, (path, vs) ∈ W → ∃ info, s.info? path = some info ∧
      Walk s info.frame info.document.nodes vs := by
    intro path vs hw
    obtain ⟨info, hinfo, hwalk, -⟩ := hp.walk path vs hw
    obtain ⟨handedRanges, hinfo'⟩ := h.progress.info path info hinfo
    refine ⟨{ info with handedRanges }, ?_, hwalk.keeps hkeeps⟩
    rw [info?, hdocuments]
    exact hinfo'
  have huntitled : ∀ e entry, s.registry.entryAt? e = some entry → entry.title = none := by
    rw [hb.same]
    exact h.progress.untitled hsupplied.untitled
  refine { ordered := ?_, ready := ?_, sighted := ?_, nodup := ?_, paths := ?_, ascending := ?_,
           walk := hwalk, untitled := huntitled, textless := ?_ }
  · rw [hb.same]
    exact h.progress.ordered hsupplied.ordered
  · intro v hv
    obtain ⟨⟨path, vs⟩, hw, hv⟩ := List.mem_flatMap.1 hv
    obtain ⟨info, -, hwalk⟩ := hwalk path vs hw
    exact hwalk.ready v hv
  · exact fun v hv => (hsupplied.sighted v hv).recalls
      (hrecalls.mono fun _ _ => NodeState.core_eq_of_untargeted) hsize
  · refine nodup_place? (.of_map EntryId.index ?_) ?_
    · rw [hp.entries]
      exact List.nodup_range
    · rw [hkeeps.site?_eq hsize]
      exact hsupplied.nodup
  · rw [hp.paths, hdocuments, h.progress.keys, hp.keys]
  · rw [hdocuments, h.progress.keys, hp.keys]
    exact hp.ascending
  · exact fun v hv => hrecalls.textless huntitled (hsupplied.sighted v hv) (hsupplied.textless v hv)

theorem Untold.exists_walk (h : s.Untold W) {path : String} {info : DocumentInfo}
    (hinfo : s.info? path = some info) : ∃ vs, (path, vs) ∈ W := by
  have hmem : path ∈ W.map Prod.fst := by
    rw [h.paths]
    exact Table.mem_keys_iff.2 ⟨info, hinfo⟩
  obtain ⟨⟨_, vs⟩, hw, rfl⟩ := List.mem_map.1 hmem
  exact ⟨vs, hw⟩

/-- The visits of a part of the documents. -/
theorem exists_toured {ds : Table DocumentInfo} (hpaths : W.map Prod.fst = ds.keys)
    (hwalk : ∀ path info vs, (path, info) ∈ ds → (path, vs) ∈ W →
      Walk s info.frame info.document.nodes vs) :
    ∃ vs, s.Toured ds vs ∧ vs.Sublist (W.flatMap Prod.snd) := by
  induction ds generalizing W with
  | nil => exact ⟨[], .nil, List.nil_sublist _⟩
  | cons d ds ih =>
    obtain ⟨path, info⟩ := d
    obtain ⟨⟨path', vs⟩, W, rfl, hpath, hpaths'⟩ := List.map_eq_cons_iff.1 hpaths
    cases hpath
    obtain ⟨ws, hds, hsub⟩ := ih hpaths' fun path info vs hd hw =>
      hwalk path info vs (List.mem_cons_of_mem _ hd) (List.mem_cons_of_mem _ hw)
    rw [List.flatMap_cons]
    cases ht : info.document.template with
    | true => exact ⟨ws, .template ht hds, hsub.trans (List.sublist_append_right _ _)⟩
    | false =>
      exact ⟨vs ++ ws, .document ht (hwalk path info vs (by simp) (by simp)) hds,
        hsub.append_left vs⟩

/-- Passes begin with nothing that could be wrong. -/
theorem Untold.sought (h : s.Untold W) :
    ∃ vs, s.Sought vs ∧ vs.Sublist (W.flatMap Prod.snd) := by
  obtain ⟨vs, ht, hsub⟩ := exists_toured h.paths fun path info vs hd hw => by
    obtain ⟨info', hinfo, hwalk⟩ := h.walk path vs hw
    cases hinfo.symm.trans (Table.lookup_of_mem h.ascending hd)
    exact hwalk
  refine ⟨vs, { ordered := h.ordered, ready := fun v hv => h.ready v (hsub.subset hv),
                sighted := fun v hv => h.sighted v (hsub.subset hv),
                nodup := h.nodup.sublist (hsub.filterMap _), toured := ht,
                consistent := fun v hv text htext => ?_ }, hsub⟩
  cases (h.textless v (hsub.subset hv)).symm.trans htext

end Resolution

namespace Collection

variable {c : Collection}

/-- The phases before texts are found. -/
def beforeValues (c : Collection) : Run Unit := do
  c.arrange
  Run.resolveRanges

theorem phases_eq (c : Collection) :
    c.phases = c.beforeValues >>= fun _ => Run.resolveValues := by
  simp only [phases, beforeValues, arrange, bind_assoc]

theorem Described.beforeValues_ends (hc : c.Described) :
    Ends ResolveError.External c.beforeValues c.start fun _ s => ∃ W, s.Untold W := by
  unfold beforeValues
  rw [Ends.bind_iff]
  refine hc.arrange_ends.mono fun _ s₀ ⟨W, hp, hsupplied⟩ => ?_
  exact (Run.resolveRanges_ends hp hsupplied).mono fun _ s ⟨s₁, P, h, hb⟩ =>
    ⟨W, .of_steady hp hsupplied h hb⟩

end Collection

end Folio
