import Folio.Proofs.Resolution.Course
import Folio.Proofs.Resolution.Stated

/-!
# What registration leaves

`Resolution.Equipped` gathers what registration has left for the visits of all documents. No phase
before that registers the documents fails internally (`registerAll_ends`), and neither does putting
them in order, which changes nothing of what visits find (`Equipped.reordered`,
`Collection.Described.prepared_ends`).
-/

namespace Folio

open Resolution

namespace Resolution

/-- All values are complete, all visits find what they need, and each term has a place of its
own. -/
structure Equipped (c : Collection) (vs : List Visit) (s : Resolution) : Prop where
  proper : s.Proper c
  complete : ∀ σ k inner body, s.stateIn? σ k = some (.value inner body) →
    s.Complete c σ inner body
  stated : ∀ v ∈ vs, s.Stated c v
  nodup : (vs.filterMap s.site?).Nodup

theorem Proper.withDocument {c : Collection} {s : Resolution} (h : s.Proper c) (d : Document) :
    (s.withDocument d).Proper c := by
  set documents := s.documents.put d.path
    { document := d, scope := ⟨s.registry.scopes.size⟩, frame := s.freshFrame } with hdocuments
  have hs₁ : Proper c { s with documents } := h.withDocuments fun e he => by
    rw [hdocuments, Table.lookup_put]
    split
    · rfl
    · exact he
  set opened : Frame := ⟨none, d.path, ⟨s.registry.scopes.size⟩, .document []⟩ with hopened
  have hknown : (info? { s with documents } opened.document).isSome := by
    change (documents.lookup d.path).isSome
    rw [hdocuments, Table.lookup_put, if_pos rfl]
    rfl
  obtain ⟨hs₂, -⟩ := hs₁.openScope "" d.path none none (by simp) (show opened.scope = _ from rfl)
    (by simp [hopened]) trivial hknown
  exact (hs₂.names (.modifyIndex ..)).1

end Resolution

namespace Run

variable {c : Collection} {s : Resolution}

theorem addDocuments_concludes (ds : List Document) :
    Concludes c (ds.forM addDocument) c.start fun _ s => s.Proper c :=
  .forM_split (J := fun _ _ s => s.Proper c)
    (fun _ d _ _ _ hs => .of_ok rfl (hs.withDocument d).toFramed (hs.withDocument d))
    (fun _ hs => hs.toFramed) (Proper.start c)

/-- Registers a document whose blocks are registered. -/
def registerDocument (depth : Nat) (p : String × DocumentInfo) : Run Unit := do
  p.2.document.settings.keys.forM (requestRange p.2.frame)
  registerWithin depth p.2.frame p.2.document.nodes

/-- Some documents are registered, and the visits of the walks through them are furnished; the
nodes of the others have no states yet. -/
structure Furnishing (c : Collection) (s₁ : Resolution) (post : Table DocumentInfo)
    (vs : List Visit) (s : Resolution) : Prop where
  proper : s.Proper c
  furthers : s₁.Furthers c (fun _ _ => True) s
  stated : ∀ v ∈ vs, s.Stated c v
  nodup : (vs.filterMap s.site?).Nodup
  vacant : ∀ p ∈ post, s.Vacant p.2.scope (Node.usesAll p.2.document.nodes)

/-- What is known between two documents: those in `pre` are registered, those in `post` are not. -/
def Partway (c : Collection) (s₁ : Resolution) (pre post : Table DocumentInfo) (s : Resolution) :
    Prop :=
  ∃ W, Midway c.stock s₁ pre post W s ∧ Furnishing c s₁ post (W.flatMap Prod.snd) s

theorem Partway.framed {s₁ : Resolution} {pre post : Table DocumentInfo}
    (h : Partway c s₁ pre post s) : s.Framed c := by
  obtain ⟨_, _, hf⟩ := h
  exact hf.proper.toFramed

/-- All documents are registered. -/
theorem Furnishing.equipped {s₁ : Resolution} {vs : List Visit} (h : Furnishing c s₁ [] vs s)
    (hst : s₁.states = []) : s.Equipped c vs where
  proper := h.proper
  complete σ k inner body hs := by
    refine (h.furthers.complete σ k inner body hs).resolve_left fun hold => ?_
    simp [stateIn?, hst] at hold
  stated := h.stated
  nodup := h.nodup

section

variable {s₁ : Resolution} {pre post : Table DocumentInfo} {p : String × DocumentInfo}
  (hc : c.Described) (hk : Known c.options (c.documents.map Prod.snd) s₁)

include hc hk

/-- The blocks of the documents are registered before any of their nodes. -/
theorem blocks_concludes (hs₁ : s₁.Proper c) (hne : s₁.documents ≠ []) :
    Concludes c (s₁.documents.forM fun (_, info) =>
      registerBlocks info.scope info.frame info.document.blocks) s₁ fun _ s =>
        Partway c s₁ [] s₁.documents s := by
  have hmem : ∀ p ∈ s₁.documents, (p.1, p.2.document) ∈ c.documents := fun p hp => hk.mem hc hp
  refine (Concludes.forM_split
    (J := fun _ _ s => Quiet c.stock s₁ s ∧ s.Proper c ∧ s₁.Furthers c Nowhere s)
    (fun _ p _ s hsplit h => ?_) (fun s h => h.2.1.toFramed)
    ⟨.refl (hk.fine hne), hs₁, .refl s₁⟩).mono fun _ s₂ ⟨hq, hs₂, hfur⟩ => ?_
  · obtain ⟨hq, hs, hfur⟩ := h
    have hp : p ∈ s₁.documents := by simp [← hsplit]
    obtain ⟨frame, hf, -, -, hscope, -⟩ := ((hk.opened p hp).keeps hq.keeps rfl rfl).frame
    dsimp only
    rw [← hscope]
    refine (Concludes.inspect (registerBlocks_safely hs hf fun b hb => ⟨p.1, p.2.document,
      hmem p hp, Block.mem_all_of_mem hb⟩) (registerBlocks_quietly _ _ _
        (fun b hb => (hc.fits (hmem p hp)).blocks b hb) s hq.fine)).mono ?_
    rintro _ s' ⟨⟨hq', -⟩, hs', hfur', -⟩
    exact ⟨hq.trans hq', hs', hfur.trans hfur'⟩
  · refine ⟨[], hk.midway hc hq, hs₂, hfur.mono fun _ _ h => h.elim, by simp, by simp,
      fun p hp k hk' => ?_⟩
    refine hfur.vacant (fun k hk' => (hc.fits (hmem p hp)).nodes.fit.node k hk')
      (fun k _ => ?_) k hk'
    simp [stateIn?, hk.states]

variable (hsplit : pre ++ p :: post = s₁.documents) (h : Partway c s₁ pre (p :: post) s)

include hsplit h

/-- The nodes of a document are due once the ranges that it sets are asked for. -/
theorem Partway.settings {depth : Nat} (hdepth : c.blockNames.dedup.length < depth) :
    Concludes c (p.2.document.settings.keys.forM (requestRange p.2.frame)) s fun _ s' =>
      Quiet c.stock s s' ∧ s.Furthers c Nowhere s' ∧ (s'.callStack p.2.frame) = {} ∧
        s'.expansions p.2.frame = [] ∧ ∃ frame, frame.document = p.1 ∧ frame.scope = p.2.scope ∧
          Due c depth s' p.2.frame frame p.2.document.nodes := by
  obtain ⟨W, hm, hf⟩ := h
  have hp : p ∈ s₁.documents := by simp [← hsplit]
  have hd := hk.mem hc hp
  obtain ⟨frame, hframe, hpar, hdoc, hscope, hkind⟩ :=
    ((hk.opened p hp).keeps hm.grows.keeps rfl rfl).frame
  refine (Concludes.inspect (Safely.forM (J := fun _ _ => True) hf.proper
    (fun _ typ _ s' _ hs' h' _ => ?_) trivial)
    (Quietly.reading.forM p.2.frame _ (fun typ _ => requestRange_quietly p.2.frame typ) s hm.fine)).mono
    fun _ s₂ ⟨⟨h₂, _⟩, hs₂, hfur₂, _⟩ => ?_
  · obtain ⟨frame', hframe', -⟩ := h'.frame _ frame hframe
    exact (requestRange_safely hs' hframe' typ).mono fun _ _ _ _ => trivial
  obtain ⟨frame₂, hframe₂, ha₂⟩ := hfur₂.frame _ frame hframe
  have hpar₂ : frame₂.parent = none := ha₂.1.trans hpar
  have hkind₂ := hkind.alike ha₂.2.2.2
  have hcalls : s₂.callStack p.2.frame = {} := by
    rw [callStack_eq hs₂.ordered hframe₂, hpar₂]
    cases hk : frame₂.kind <;> simp_all [FrameKind.IsDocument]
  have hexp : s₂.expansions p.2.frame = [] := by
    rw [expansions_eq hs₂.ordered hframe₂, hpar₂]
    cases hk : frame₂.kind <;> simp_all [FrameKind.IsDocument]
  have hnodes := (hc.fits hd).nodes
  refine ⟨h₂, hfur₂, hcalls, hexp, frame₂, ha₂.2.1.trans hdoc, ha₂.2.2.1.trans hscope, h₂.fine, hs₂,
    hframe₂, hnodes, fun t ht => ⟨p.1, p.2.document, hd, List.mem_append_right _ ht⟩, ?_,
    Nat.lt_of_lt_of_le hdepth (Nat.le_add_right ..)⟩
  rw [ha₂.2.2.1, hscope]
  exact hfur₂.vacant (fun k hk => hnodes.fit.node k hk) (hf.vacant p (by simp))

/-- One more document is registered. -/
theorem Partway.document {depth : Nat} (hdepth : c.blockNames.dedup.length < depth) :
    Concludes c (registerDocument depth p) s fun _ s' => Partway c s₁ (pre ++ [p]) post s' := by
  obtain ⟨W, hm, hf⟩ := id h
  have hmem : ∀ q ∈ post, q ∈ s₁.documents := fun q hq => by simp [← hsplit, hq]
  have htop : ∀ q ∈ post, s.TopFrame q.1 q.2 := fun q hq =>
    (hk.opened q (hmem q hq)).keeps hm.grows.keeps rfl rfl
  have hscopes := hk.scope_ne_of_split hsplit
  unfold registerDocument
  refine (Partway.settings hc hk hsplit h hdepth).bind ?_
  rintro _ s₂ ⟨hq₂, hfur₂, -, -, frame, hdoc, hscope, hdue⟩
  refine ((registerWithin_concludes hc depth _ _ s₂ frame hdue).inspect
    (registering_registerWithin depth _ _ s₂ frame hdue.fine hdue.opened hdue.fits
      hdue.vacant.free)).mono ?_
  rintro _ s' ⟨⟨vs, h₃, hw⟩, -, vs', hw', hfurnish⟩
  cases hw.unique hw'
  rw [hscope, hdoc] at h₃
  rw [hscope] at hfurnish
  refine ⟨_, hm.add ((Registers.of_quiet hq₂ p.2.scope p.1 []).trans h₃) hw htop hscopes
    (hk.path_ne_of_split hc hsplit)
    (congrArg DocumentInfo.requests (hk.fresh p (by simp [← hsplit]))), ?_⟩
  have hfirst : s.Furnishes c p.2.scope [] [] s₂ :=
    .of_furthers hdue.proper (hfur₂.mono fun _ _ h => h.elim) (by simp) (by simp)
  have hboth := hfirst.append hfurnish (fun k hk => by cases hk) fun k hk => .inr ⟨rfl, hk⟩
  rw [List.nil_append] at hboth
  refine ⟨hboth.proper, hf.furthers.append hboth.furthers (fun _ _ h => h) fun _ _ _ => trivial,
    ?_, ?_, fun q hq => ?_⟩
  · intro v hv
    rw [List.flatMap_append, List.mem_append] at hv
    rcases hv with hv | hv
    · exact hboth.furthers.stated (hf.stated v hv)
    · exact hboth.stated v (by simpa using hv)
  · simpa using hboth.nodup_append hf.stated hf.nodup
  · -- states are set in the scope of this document and in new ones only
    refine hboth.furthers.vacant_of_not
      (fun k hk' => (hc.fits (hk.mem hc (hmem q hq))).nodes.fit.node k hk') (fun k _ hin => ?_)
      (hf.vacant q (by simp [hq]))
    rcases hin with hnew | ⟨heq, -⟩
    · obtain ⟨frame', hf', -, -, hscope', -⟩ := (htop q hq).frame
      have hlt := hf.proper.scope_lt _ frame' hf'
      rw [hscope'] at hlt
      omega
    · exact hscopes q hq heq

end

/-- The depth of expansions that registration allows for. -/
def depthFor (ds : List Document) : Nat := Block.totalAll (ds.flatMap Document.blocks) + 2

theorem length_blockNames_lt_depthFor :
    c.blockNames.dedup.length < depthFor (c.documents.map Prod.snd) := by
  have hle := (List.dedup_sublist c.blockNames).length_le
  rw [Collection.length_blockNames] at hle
  rw [depthFor]
  omega

/-- Registers the documents with expansions that lie less deep in one another than `depth`. -/
def registerAllWithin (depth : Nat) (ds : List Document) : Run Unit := do
  ds.forM addDocument
  let infos := (← get).documents
  infos.forM fun (_, info) => registerBlocks info.scope info.frame info.document.blocks
  infos.forM (registerDocument depth)

theorem registerAll_eq (ds : List Document) :
    registerAll ds = registerAllWithin (depthFor ds) ds := rfl

end Run

/-- Registration does not fail internally, and later phases find what they need. However it ends,
frames lie in one another as they should. -/
theorem Collection.Described.registerAll_concludes {c : Collection} (hc : c.Described) :
    Run.Concludes c (Run.registerAll (c.documents.map Prod.snd)) c.start fun _ s =>
      ∃ W, Catalog c W s ∧ s.Equipped c (W.flatMap Prod.snd) := by
  rw [Run.registerAll_eq, Run.registerAllWithin]
  refine ((Run.addDocuments_concludes _).inspect (Run.addDocuments_spec c hc.sorted_paths)).bind ?_
  rintro _ s₁ ⟨hk, hs₁⟩
  refine .get_bind ?_
  by_cases hnil : s₁.documents = []
  · rw [hnil]
    refine .of_ok rfl hs₁.toFramed ⟨[], hk.catalog_nil hc hnil, hs₁, fun σ k inner body h => ?_,
      by simp, by simp⟩
    simp [stateIn?, hk.states] at h
  refine (Run.blocks_concludes hc hk hs₁ hnil).bind fun _ s₂ h₂ => ?_
  refine (Run.Concludes.forM_split (J := fun pre post s => Run.Partway c s₁ pre post s)
    (fun pre p post s hsplit h => Run.Partway.document hc hk hsplit h
      Run.length_blockNames_lt_depthFor) (fun s h => h.framed) h₂).mono ?_
  rintro _ s ⟨W, hm, hf⟩
  exact ⟨W, .of_midway hc hk hm, hf.equipped hk.states⟩

theorem Collection.Described.registerAll_ends {c : Collection} (hc : c.Described) :
    Ends ResolveError.External (Run.registerAll (c.documents.map Prod.snd)) c.start fun _ s =>
      ∃ W, Catalog c W s ∧ s.Equipped c (W.flatMap Prod.snd) :=
  hc.registerAll_concludes.ends

end Folio
