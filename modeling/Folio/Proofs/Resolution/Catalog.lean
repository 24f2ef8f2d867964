import Folio.Proofs.Resolution.Walk

/-!
# What registration leaves

After the first phase every document has its frame, and a walk through its expanded nodes. The
labeled nodes on these walks, one document after the other, are the entries of the registry in
their order, and the embeddings on the walk through a document are its requests. `Catalog` is the
list of all walks with these facts, and `registerAll_spec` says that registration makes one.
-/

namespace Folio

open Resolution

/-- The frame at the top of a document. -/
def FrameKind.IsDocument : FrameKind → Prop
  | .document _ => True
  | _ => False

theorem FrameKind.IsDocument.alike {k k' : FrameKind} (h : k.IsDocument) (hk : k.Alike k') :
    k'.IsDocument := by
  cases k <;> cases k' <;> simp_all [IsDocument, Alike]

theorem FrameKind.IsDocument.exists_ids {k : FrameKind} (h : k.IsDocument) :
    ∃ ids, k = .document ids := by
  cases k with
  | document ids => exact ⟨ids, rfl⟩
  | _ => exact h.elim

namespace Resolution

/-- The frame of a document lies in no other one and has the scope of the document. -/
structure TopFrame (s : Resolution) (path : String) (info : DocumentInfo) : Prop where
  frame : ∃ frame, s.frame? info.frame = some frame ∧ frame.parent = none ∧
    frame.document = path ∧ frame.scope = info.scope ∧ frame.kind.IsDocument

theorem TopFrame.keeps {s s' : Resolution} {path : String} {info info' : DocumentInfo}
    (h : s.TopFrame path info) (hs : s.Keeps s') (hf : info'.frame = info.frame)
    (hc : info'.scope = info.scope) : s'.TopFrame path info' := by
  obtain ⟨frame, hframe, hp, hd, hscope, hk⟩ := h.frame
  obtain ⟨frame', hframe', ha⟩ := hs.frame info.frame frame hframe
  exact ⟨frame', hf ▸ hframe', ha.1.trans hp, ha.2.1.trans hd,
    (ha.2.2.1.trans hscope).trans hc.symm, hk.alike ha.2.2.2⟩

end Resolution

/-! ## Adding documents -/

/-- The documents `ds` are known, and nothing else is. -/
structure Known (options : Options) (ds : List Document) (s : Resolution) : Prop where
  options : s.options = options
  documents : s.documents.map (fun p => (p.1, p.2.document)) = ds.map fun d => (d.path, d)
  fresh : ∀ p ∈ s.documents,
    p.2 = { document := p.2.document, scope := p.2.scope, frame := p.2.frame }
  opened : ∀ p ∈ s.documents, s.TopFrame p.1 p.2
  blank : ∀ f frame, s.frame? f = some frame → frame.kind.Blank
  scopes : (s.documents.map fun p => p.2.scope).Nodup
  scope_lt : ∀ f frame, s.frame? f = some frame →
    frame.scope.index < s.registry.scopes.size
  numbering : s.numbering = {}
  roots : s.roots = []
  states : s.states = []
  entries : s.registry.entries = #[]
  values : s.registry.values = #[]
  blocks : s.registry.blocks = #[]
  place : ∀ path anchor address, s.registry.address? (.place path anchor) = some address →
    address.document = path

namespace Known

theorem start (c : Collection) : Known c.options [] c.start where
  options := rfl
  documents := rfl
  fresh := by simp [Collection.start]
  opened := by simp [Collection.start]
  blank := by simp [Collection.start, frame?]
  scopes := by simp [Collection.start]
  scope_lt := by simp [Collection.start, frame?]
  numbering := rfl
  roots := rfl
  states := rfl
  entries := rfl
  values := rfl
  blocks := rfl
  place := by simp [Collection.start, Registry.address?]

end Known

namespace Table

variable {α : Type}

/-- A key behind all others is put at the end. -/
theorem put_append {t : Table α} {key : String} (h : ∀ k ∈ t.keys, k < key) (x : α) :
    t.put key x = t ++ [(key, x)] := by
  induction t with
  | nil => rfl
  | cons e t ih =>
    obtain ⟨k, y⟩ := e
    have hk : k < key := h k (by simp [keys])
    have ht : ∀ k ∈ keys t, k < key := fun k hk => h k (List.mem_cons_of_mem _ hk)
    unfold put
    rw [if_neg, if_neg, ih ht]
    · rfl
    · exact String.lt_asymm hk
    · rintro rfl
      exact String.lt_irrefl _ hk

end Table

namespace Resolution

/-- A document has a frame and a scope of its own now. -/
def withDocument (s : Resolution) (d : Document) : Resolution :=
  let added := s.registry.addDocument d.path
  { s with
    registry := added.2
    frames := s.frames.push
      { parent := none, document := d.path, scope := added.1, kind := .document [] }
    documents := s.documents.put d.path
      { document := d, scope := added.1, frame := s.freshFrame } }

variable (s : Resolution) (d : Document)

theorem frame?_withDocument (f : FrameId) : (s.withDocument d).frame? f =
    if f = s.freshFrame then some ⟨none, d.path, ⟨s.registry.scopes.size⟩, .document []⟩
    else s.frame? f :=
  frame?_push (s := s) _ f

@[simp]
theorem size_scopes_withDocument :
    (s.withDocument d).registry.scopes.size = s.registry.scopes.size + 1 := by
  simp [withDocument, Registry.addDocument, Registry.newScope]

theorem address?_withDocument (link : Link) : (s.withDocument d).registry.address? link =
    if link = .place d.path "" then some ⟨d.path, "", .document d.path⟩
    else s.registry.address? link := by
  change List.lookup link ((_, _) :: s.registry.index.addresses) = _
  rw [List.lookup_cons]
  by_cases hl : link = .place d.path ""
  · simp [hl]
  · rw [if_neg hl, beq_false_of_ne hl]
    rfl

end Resolution

namespace Known

variable {options : Options} {ds : List Document} {d : Document} {s : Resolution}

theorem paths (h : Known options ds s) : s.documents.keys = ds.map Document.path := by
  have := congrArg (List.map Prod.fst) h.documents
  rw [List.map_map, List.map_map] at this
  exact this

/-- A document whose path comes after those of the other ones is added at the end. -/
theorem documents_withDocument (h : Known options ds s) (hd : ∀ e ∈ ds, e.path < d.path) :
    (s.withDocument d).documents = s.documents ++
      [(d.path, { document := d, scope := ⟨s.registry.scopes.size⟩, frame := s.freshFrame })] := by
  refine Table.put_append (fun k hk => ?_) _
  rw [h.paths] at hk
  obtain ⟨e, he, rfl⟩ := List.mem_map.1 hk
  exact hd e he

theorem frame_cases (h : Known options ds s) {f : FrameId} {frame : Frame}
    (hf : (s.withDocument d).frame? f = some frame) :
    frame.kind.Blank ∧ frame.scope.index < s.registry.scopes.size + 1 := by
  rw [frame?_withDocument] at hf
  split at hf
  · cases hf
    exact ⟨trivial, Nat.lt_succ_self _⟩
  · exact ⟨h.blank f frame hf, Nat.lt_succ_of_lt (h.scope_lt f frame hf)⟩

theorem scope_ne (h : Known options ds s) {p : String × DocumentInfo} (hp : p ∈ s.documents) :
    p.2.scope ≠ ⟨s.registry.scopes.size⟩ := by
  obtain ⟨frame, hf, -, -, hs, -⟩ := (h.opened p hp).frame
  have hlt := h.scope_lt _ frame hf
  intro heq
  rw [hs, heq] at hlt
  exact Nat.lt_irrefl _ hlt

theorem withDocument (h : Known options ds s) (hd : ∀ e ∈ ds, e.path < d.path) :
    Known options (ds ++ [d]) (s.withDocument d) where
  options := h.options
  documents := by simp [h.documents_withDocument hd, h.documents]
  fresh p hp := by
    rw [h.documents_withDocument hd] at hp
    rcases List.mem_append.1 hp with hp | hp
    · exact h.fresh p hp
    · cases List.mem_singleton.1 hp
      rfl
  opened p hp := by
    rw [h.documents_withDocument hd] at hp
    rcases List.mem_append.1 hp with hp | hp
    · obtain ⟨frame, hf, hrest⟩ := (h.opened p hp).frame
      refine ⟨frame, ?_, hrest⟩
      rw [frame?_withDocument, if_neg (freshFrame_of_frame? hf), hf]
    · cases List.mem_singleton.1 hp
      exact ⟨_, (frame?_withDocument ..).trans (if_pos rfl), rfl, rfl, rfl, trivial⟩
  blank _ _ hf := (h.frame_cases hf).1
  scopes := by
    rw [h.documents_withDocument hd, List.map_append]
    refine List.nodup_append.2 ⟨h.scopes, by simp, ?_⟩
    rintro a ha b hb rfl
    obtain ⟨p, hp, rfl⟩ := List.mem_map.1 ha
    exact h.scope_ne hp (by simpa using hb)
  scope_lt _ _ hf := by
    rw [size_scopes_withDocument]
    exact (h.frame_cases hf).2
  numbering := h.numbering
  roots := h.roots
  states := h.states
  entries := h.entries
  values := h.values
  blocks := h.blocks
  place path anchor address ha := by
    rw [address?_withDocument] at ha
    split at ha
    next heq =>
      cases ha
      cases heq
      rfl
    next => exact h.place path anchor address ha

end Known

namespace Run

theorem addDocument_spec {options : Options} {ds : List Document} {d : Document}
    {s : Resolution} (h : Known options ds s) (hd : ∀ e ∈ ds, e.path < d.path) :
    After True (addDocument d) s fun _ s' => Known options (ds ++ [d]) s' := by
  unfold addDocument
  rw [After.bind_iff, After.get_iff]
  dsimp only
  rw [After.bind_iff, After.set_iff, After.bind_iff, pushFrame_iff, After.modify_iff]
  exact h.withDocument hd

theorem addDocuments_spec (c : Collection) {ds : List Document}
    (hd : ds.Pairwise fun d e => d.path < e.path) :
    After True (ds.forM addDocument) c.start fun _ s => Known c.options ds s := by
  refine After.forM_split (J := fun pre _ s => Known c.options pre s) ?_ (Known.start c)
  rintro pre d post s rfl h
  refine addDocument_spec h fun e he => ?_
  exact (List.pairwise_append.1 hd).2.2 e he d (by simp)

end Run

theorem Known.fine {K : Stock} {options : Options} {ds : List Document} {s : Resolution}
    (h : Known options ds s) (hne : s.documents ≠ []) : Fine K s where
  blank := h.blank
  scope_lt f := by
    obtain ⟨p, hp⟩ := List.exists_mem_of_ne_nil _ hne
    obtain ⟨frame, hf, -⟩ := (h.opened p hp).frame
    have hlt := h.scope_lt _ frame hf
    unfold scopeOf
    cases hfr : s.frame? f with
    | none => exact Nat.lt_of_le_of_lt (Nat.zero_le _) hlt
    | some fr => exact h.scope_lt f fr hfr
  fixed_mem scope key state hs := by simp [fixed?, stateIn?, h.states] at hs
  unslotted e entry he := by simp [Registry.entryAt?, h.entries] at he
  value v binding hv := by simp [Registry.value?, h.values] at hv
  block b entry hb := by simp [Registry.block?, h.blocks] at hb
  place := h.place

/-- All documents of a collection are registered, with the walks `W` through them. -/
structure Catalog (c : Collection) (W : List (String × List Visit)) (s : Resolution) : Prop where
  options : s.options = c.options
  keys : s.documents.keys = c.documents.keys
  paths : W.map Prod.fst = c.documents.keys
  info : ∀ path info, s.info? path = some info → (path, info.document) ∈ c.documents ∧
    s.TopFrame path info ∧ info.embeddedBy = none ∧ info.handedRanges = [] ∧ info.root = none
  walk : ∀ path vs, (path, vs) ∈ W → ∃ info, s.info? path = some info ∧
    Walk s info.frame info.document.nodes vs ∧ info.requests = vs.filterMap Visit.request?
  written : ∀ path vs, (path, vs) ∈ W → ∀ h ∈ vs.filterMap Visit.heading?,
    c.stock.heading h
  unslotted : ∀ e entry, s.registry.entryAt? e = some entry → entry.slot = none
  entries : ((W.flatMap Prod.snd).filterMap Visit.entry?).map EntryId.index =
    List.range s.registry.entries.size
  numbering : s.numbering = {}
  roots : s.roots = []
  blank : ∀ f frame, s.frame? f = some frame → frame.kind.Blank
  place : ∀ path anchor address, s.registry.address? (.place path anchor) = some address →
    address.document = path

namespace Run

/-- The walks through the documents that are registered already, while the nodes of the others
are not. -/
structure Midway (K : Stock) (s₁ : Resolution) (pre post : Table DocumentInfo)
    (W : List (String × List Visit)) (s : Resolution) : Prop where
  grows : s₁.Grows s
  fine : Fine K s
  paths : W.map Prod.fst = pre.map Prod.fst
  walk : ∀ path vs, (path, vs) ∈ W → ∃ info ranges, (path, info) ∈ pre ∧ s.info? path = some
    { info with ranges, requests := vs.filterMap Visit.request? } ∧
    Walk s info.frame info.document.nodes vs
  written : ∀ path vs, (path, vs) ∈ W → ∀ h ∈ vs.filterMap Visit.heading?, K.heading h
  rest : ∀ path info, (path, info) ∈ post → ∃ ranges, s.info? path = some { info with ranges }
  free : ∀ path info, (path, info) ∈ post →
    s.Free info.scope (Node.usesAll info.document.nodes)
  entries : ((W.flatMap Prod.snd).filterMap Visit.entry?).map EntryId.index =
    List.range s.registry.entries.size

variable {K : Stock}

/-- The walk through the next document is added, once its nodes are registered. -/
theorem Midway.add {s₁ s s' : Resolution} {pre post : Table DocumentInfo} {path : String}
    {info : DocumentInfo} {W : List (String × List Visit)} {vs : List Visit}
    (h : Midway K s₁ pre ((path, info) :: post) W s)
    (hr : Registers K info.scope path (Node.usesAll info.document.nodes) vs s s')
    (hw : Walk s' info.frame info.document.nodes vs) (hpost : ∀ p ∈ post, s.TopFrame p.1 p.2)
    (hscopes : ∀ p ∈ post, p.2.scope ≠ info.scope) (hpaths : ∀ p ∈ pre ++ post, p.1 ≠ path)
    (hreq : info.requests = []) :
    Midway K s₁ (pre ++ [(path, info)]) post (W ++ [(path, vs)]) s' where
  grows := h.grows.trans hr.toGrows
  fine := hr.fine
  paths := by simp [h.paths]
  walk p ws hp := by
    rcases List.mem_append.1 hp with hp | hp
    · obtain ⟨info', ranges, hmem, hinfo, hwalk⟩ := h.walk p ws hp
      obtain ⟨ranges', hinfo'⟩ := hr.requests p _ hinfo
      refine ⟨info', ranges', List.mem_append_left _ hmem, ?_, hwalk.keeps hr.keeps⟩
      rw [if_neg (hpaths (p, info') (List.mem_append_left _ hmem)), List.append_nil] at hinfo'
      exact hinfo'
    · cases List.mem_singleton.1 hp
      obtain ⟨ranges, hinfo⟩ := h.rest path info (by simp)
      obtain ⟨ranges', hinfo'⟩ := hr.requests path _ hinfo
      refine ⟨info, ranges', by simp, ?_, hw⟩
      rw [if_pos rfl, hreq, List.nil_append] at hinfo'
      exact hinfo'
  written p ws hp := by
    rcases List.mem_append.1 hp with hp | hp
    · exact h.written p ws hp
    · cases List.mem_singleton.1 hp
      exact hr.written
  rest p info' hp := by
    obtain ⟨ranges, hinfo⟩ := h.rest p info' (by simp [hp])
    obtain ⟨ranges', hinfo'⟩ := hr.requests p _ hinfo
    refine ⟨ranges', ?_⟩
    rw [if_neg (hpaths (p, info') (List.mem_append_right _ hp)), List.append_nil] at hinfo'
    exact hinfo'
  free p info' hp k hk := by
    obtain ⟨frame', hf', -, -, hscope', -⟩ := (hpost (p, info') hp).frame
    have hlt : info'.scope.index < s.registry.scopes.size := by
      rw [← hscope', ← scopeOf_eq hf']
      exact h.fine.scope_lt _
    -- registering in a document touches the scopes that it opens, and its own one
    refine Classical.byContradiction fun (hne : _ ≠ _) => ?_
    rw [← h.free p info' (by simp [hp]) k hk] at hne
    exact hscopes (p, info') hp (hr.touched info'.scope k hlt hne).1
  entries := by
    rw [List.flatMap_append, List.filterMap_append, List.map_append, h.entries]
    simp only [List.flatMap_cons, List.flatMap_nil, List.append_nil]
    rw [hr.entries, hr.size, List.range_eq_range', List.range_eq_range', ← List.range'_append,
      Nat.one_mul, Nat.zero_add]

/-- After the declared label types were noted, the nodes of a document can be registered. -/
theorem Midway.requested {s₁ s : Resolution} {pre post : Table DocumentInfo} {path : String}
    {info : DocumentInfo} {W : List (String × List Visit)}
    (h : Midway K s₁ pre ((path, info) :: post) W s) (htop : s.TopFrame path info) :
    After True (info.document.settings.keys.forM (requestRange info.frame)) s fun _ s₂ =>
      Quiet K s s₂ ∧ ∃ frame, s₂.frame? info.frame = some frame ∧ frame.scope = info.scope ∧
        frame.document = path ∧ s₂.Free frame.scope (Node.usesAll info.document.nodes) := by
  refine (Quietly.reading.forM info.frame _ (fun typ _ => requestRange_quietly info.frame typ) s
    h.fine).mono fun _ s₂ ⟨h₂, _⟩ => ?_
  obtain ⟨frame, hf, -, hdoc, hscope, -⟩ := htop.frame
  obtain ⟨frame₂, hf₂, ha₂⟩ := h₂.frame _ frame hf
  refine ⟨h₂, frame₂, hf₂, ha₂.2.2.1.trans hscope, ha₂.2.1.trans hdoc, fun k hk => ?_⟩
  rw [h₂.fixed_eq, ha₂.2.2.1, hscope]
  exact h.free path info (by simp) k hk

theorem midway_step {s₁ s : Resolution} {pre post : Table DocumentInfo} {path : String}
    {info : DocumentInfo} {W : List (String × List Visit)} (depth : Nat)
    (h : Midway K s₁ pre ((path, info) :: post) W s) (hfits : Node.Fits K info.document.nodes)
    (htop : s.TopFrame path info) (hpost : ∀ p ∈ post, s.TopFrame p.1 p.2)
    (hscopes : ∀ p ∈ post, p.2.scope ≠ info.scope) (hpaths : ∀ p ∈ pre ++ post, p.1 ≠ path)
    (hreq : info.requests = []) :
    After True (do
      info.document.settings.keys.forM (requestRange info.frame)
      registerWithin depth info.frame info.document.nodes) s fun _ s' =>
        ∃ W', Midway K s₁ (pre ++ [(path, info)]) post W' s' := by
  rw [After.bind_iff]
  refine (h.requested htop).mono fun _ s₂ ⟨h₂, frame₂, hf₂, hscope, hdoc, hfree₂⟩ => ?_
  refine (registering_registerWithin depth info.frame info.document.nodes s₂ frame₂ h₂.fine hf₂ hfits
    hfree₂).mono ?_
  rintro _ s' ⟨vs, h₃, hw⟩
  rw [hscope, hdoc] at h₃
  exact ⟨_, h.add ((Registers.of_quiet h₂ info.scope path []).trans h₃) hw hpost hscopes hpaths hreq⟩

end Run

namespace Collection.Described

variable {c : Collection}

theorem documents_eq (h : c.Described) :
    (c.documents.map Prod.snd).map (fun d => (d.path, d)) = c.documents := by
  rw [List.map_map]
  refine (List.map_congr_left fun p hp => ?_).trans (List.map_id _)
  obtain ⟨path, d⟩ := p
  exact Prod.ext (h.path_eq hp) rfl

theorem paths_eq (h : c.Described) :
    (c.documents.map Prod.snd).map Document.path = c.documents.keys := by
  have := congrArg (List.map Prod.fst) h.documents_eq
  rw [List.map_map] at this
  exact this

theorem sorted_paths (h : c.Described) :
    (c.documents.map Prod.snd).Pairwise fun d e => d.path < e.path := by
  have := h.sorted
  rw [← h.paths_eq] at this
  exact List.pairwise_map.1 this

end Collection.Described

namespace Known

variable {c : Collection} {s : Resolution}

theorem mem (h : c.Described) (hk : Known c.options (c.documents.map Prod.snd) s)
    {p : String × DocumentInfo} (hp : p ∈ s.documents) : (p.1, p.2.document) ∈ c.documents := by
  rw [← h.documents_eq, ← hk.documents]
  exact List.mem_map_of_mem hp

theorem keys (h : c.Described) (hk : Known c.options (c.documents.map Prod.snd) s) :
    s.documents.keys = c.documents.keys := by
  have := congrArg (List.map Prod.fst) (hk.documents.trans h.documents_eq)
  rw [List.map_map] at this
  exact this

theorem sorted (h : c.Described) (hk : Known c.options (c.documents.map Prod.snd) s) :
    s.documents.keys.Pairwise (· < ·) := hk.keys h ▸ h.sorted

theorem info? (h : c.Described) (hk : Known c.options (c.documents.map Prod.snd) s)
    {path : String} {info : DocumentInfo} (hp : (path, info) ∈ s.documents) :
    s.info? path = some info :=
  Table.lookup_of_mem (hk.sorted h) hp

/-- The documents behind another one have other scopes. -/
theorem scope_ne_of_split (hk : Known c.options (c.documents.map Prod.snd) s)
    {pre post : Table DocumentInfo} {path : String} {info : DocumentInfo}
    (hsplit : pre ++ (path, info) :: post = s.documents) :
    ∀ p ∈ post, p.2.scope ≠ info.scope := by
  intro p hp heq
  have hscopes := hk.scopes
  rw [← hsplit, List.map_append, List.map_cons] at hscopes
  have hcons := (List.nodup_append.1 hscopes).2.1
  exact (List.nodup_cons.1 hcons).1 (heq ▸ List.mem_map_of_mem hp)

/-- The other documents have other paths. -/
theorem path_ne_of_split (h : c.Described) (hk : Known c.options (c.documents.map Prod.snd) s)
    {pre post : Table DocumentInfo} {path : String} {info : DocumentInfo}
    (hsplit : pre ++ (path, info) :: post = s.documents) : ∀ p ∈ pre ++ post, p.1 ≠ path := by
  intro p hp heq
  have hsorted := hk.sorted h
  rw [Table.keys, ← hsplit, List.map_append, List.map_cons] at hsorted
  obtain ⟨-, hcons, hlt⟩ := List.pairwise_append.1 hsorted
  rcases List.mem_append.1 hp with hp | hp
  · exact String.lt_irrefl _ (heq ▸ hlt _ (List.mem_map_of_mem hp) path (by simp))
  · exact String.lt_irrefl _
      (heq ▸ (List.pairwise_cons.1 hcons).1 _ (List.mem_map_of_mem hp))

end Known

/-- The blocks of all documents are registered, and no nodes yet. -/
theorem Known.midway {K : Stock} {c : Collection} {s₁ s : Resolution} (h : c.Described)
    (hk : Known c.options (c.documents.map Prod.snd) s₁) (hq : Quiet K s₁ s) :
    Run.Midway K s₁ [] s₁.documents [] s where
  grows := hq.toGrows
  fine := hq.fine
  paths := rfl
  walk := by simp
  written := by simp
  rest path info hp := hq.info_eq path info (hk.info? h hp)
  free path info hp k hkey := by
    rw [hq.fixed_eq]
    simp [fixed?, stateIn?, hk.states]
  entries := by simp [hq.entries, hk.entries]

theorem Catalog.of_midway {c : Collection} {s₁ s : Resolution} {W : List (String × List Visit)}
    (h : c.Described) (hk : Known c.options (c.documents.map Prod.snd) s₁)
    (hm : Run.Midway c.stock s₁ s₁.documents [] W s) : Catalog c W s where
  options := hm.grows.options.trans hk.options
  keys := hm.grows.keys.trans (hk.keys h)
  paths := hm.paths.trans (hk.keys h)
  info path info hinfo := by
    have hpath : path ∈ s.documents.keys := Table.mem_keys_iff.2 ⟨info, hinfo⟩
    rw [hm.grows.keys] at hpath
    obtain ⟨info₁, hinfo₁⟩ := Table.mem_keys_iff.1 hpath
    have hp : (path, info₁) ∈ s₁.documents := Table.mem_of_lookup hinfo₁
    obtain ⟨ranges, requests, hinfo'⟩ := hm.grows.info path info₁ hinfo₁
    cases hinfo.symm.trans hinfo'
    have hfresh := hk.fresh _ hp
    exact ⟨hk.mem h hp, (hk.opened _ hp).keeps hm.grows.keeps rfl rfl,
      congrArg DocumentInfo.embeddedBy hfresh, congrArg DocumentInfo.handedRanges hfresh,
      congrArg DocumentInfo.root hfresh⟩
  walk path vs hp := by
    obtain ⟨info, ranges, -, hinfo, hwalk⟩ := hm.walk path vs hp
    exact ⟨_, hinfo, hwalk, rfl⟩
  written := hm.written
  unslotted := hm.fine.unslotted
  entries := hm.entries
  numbering := hm.grows.numbering.trans hk.numbering
  roots := hm.grows.roots.trans hk.roots
  blank := hm.fine.blank
  place := hm.fine.place

/-- There is nothing to know of no documents. -/
theorem Known.catalog_nil {c : Collection} {s : Resolution} (h : c.Described)
    (hk : Known c.options (c.documents.map Prod.snd) s) (hnil : s.documents = []) :
    Catalog c [] s where
  options := hk.options
  keys := hk.keys h
  paths := by rw [← hk.keys h, hnil]; rfl
  info path info hinfo := by simp [Resolution.info?, hnil] at hinfo
  walk := by simp
  written := by simp
  unslotted e entry he := by simp [Registry.entryAt?, hk.entries] at he
  entries := by simp [hk.entries]
  numbering := hk.numbering
  roots := hk.roots
  blank := hk.blank
  place := hk.place

/-- Registration knows all documents and the walks through them. -/
theorem Collection.Described.registerAll_spec {c : Collection} (h : c.Described) :
    After True (Run.registerAll (c.documents.map Prod.snd)) c.start fun _ s =>
      ∃ W, Catalog c W s := by
  unfold Run.registerAll
  rw [After.bind_iff]
  refine (Run.addDocuments_spec c h.sorted_paths).mono fun _ s₁ hk => ?_
  rw [After.bind_iff, After.get_iff]
  dsimp only
  rw [After.bind_iff]
  have hfits : ∀ p ∈ s₁.documents, p.2.document.Fits c.stock := fun p hp => h.fits (hk.mem h hp)
  by_cases hnil : s₁.documents = []
  · rw [hnil]
    exact ⟨[], hk.catalog_nil h hnil⟩
  refine After.mono (Q := fun _ s => Quiet c.stock s₁ s) ?_ fun _ s₂ hq => ?_
  · refine After.forM (fun p hp s hs => ?_) (.refl (hk.fine hnil))
    exact (Run.registerBlocks_quietly _ _ _ (fun b hb => (hfits p hp).blocks b hb) s hs.fine).mono
      fun _ _ hs' => hs.trans hs'.1
  refine After.mono (Q := fun _ s => ∃ W, Run.Midway c.stock s₁ s₁.documents [] W s)
    (After.forM_split (J := fun pre post s => ∃ W, Run.Midway c.stock s₁ pre post W s) ?_
      ⟨[], hk.midway h hq⟩) fun _ s ⟨W, hm⟩ => ⟨W, .of_midway h hk hm⟩
  rintro pre ⟨path, info⟩ post s hsplit ⟨W, hm⟩
  have hp : (path, info) ∈ s₁.documents := by simp [← hsplit]
  have htop : ∀ p ∈ s₁.documents, s.TopFrame p.1 p.2 := fun p hp =>
    (hk.opened p hp).keeps hm.grows.keeps rfl rfl
  exact Run.midway_step _ hm (hfits _ hp).nodes (htop _ hp)
    (fun p hp => htop p (by simp [← hsplit, hp])) (hk.scope_ne_of_split hsplit)
    (hk.path_ne_of_split h hsplit) (congrArg DocumentInfo.requests (hk.fresh _ hp))

end Folio
