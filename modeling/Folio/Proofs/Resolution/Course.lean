import Folio.Proofs.Resolution.Tour

/-!
# The course of claiming

`Prepared` is what the phases before have left when slots are claimed. Claiming starts at each root
and comes to a document after the one that embeds it. `Resolution.below` lists the documents in
this order, and `claimDocument_of_order` says that the phase takes them one after the other:
ranges are opened, the ranges in use are noted, and the visits of the walk are made.

Each of these steps is a `Progress`. It changes the slots of entries, the numbering and what is
handed over, and nothing else that later steps look at.
-/

namespace Folio

open Resolution

/-- Documents are registered and in order, and nothing is claimed yet. -/
structure Prepared (c : Collection) (W : List (String × List Visit)) (s : Resolution) : Prop where
  options : s.options = c.options
  keys : s.documents.keys = c.documents.keys
  paths : W.map Prod.fst = c.documents.keys
  ascending : c.documents.keys.Pairwise (· < ·)
  info : ∀ path info, s.info? path = some info → (path, info.document) ∈ c.documents ∧
    s.TopFrame path info ∧ info.handedRanges = []
  root : ∀ path info, s.info? path = some info →
    ∃ root, info.root = some root ∧ Rooted s root path ∧ root ∈ s.roots.keys
  walk : ∀ path vs, (path, vs) ∈ W → ∃ info, s.info? path = some info ∧
    Walk s info.frame info.document.nodes vs ∧
    info.requests.map (fun r => (r.link, r.location)) =
      (vs.filterMap Visit.request?).map fun r => (r.link, r.location)
  written : ∀ path vs, (path, vs) ∈ W → ∀ h ∈ vs.filterMap Visit.heading?,
    c.stock.heading h
  unslotted : ∀ e entry, s.registry.entryAt? e = some entry → entry.slot = none
  entries : ((W.flatMap Prod.snd).filterMap Visit.entry?).map EntryId.index =
    List.range s.registry.entries.size
  numbering : s.numbering = {}
  roots : ∀ root entries, s.roots.lookup root = some entries → entries = [] ∧
    ∃ info, s.info? root = some info ∧ info.embeddedBy = none
  sorted : s.roots.keys.Pairwise (· < ·)
  arranged : Arranged s
  blank : ∀ f frame, s.frame? f = some frame → frame.kind.Blank
  place : ∀ path anchor address, s.registry.address? (.place path anchor) = some address →
    address.document = path

theorem Prepared.exists_walk {c : Collection} {W : List (String × List Visit)} {s : Resolution}
    (h : Prepared c W s) {d : String} {info : DocumentInfo} (hd : s.info? d = some info) :
    ∃ vs, (d, vs) ∈ W := by
  have hmem : d ∈ W.map Prod.fst := by
    rw [h.paths, ← h.keys]
    exact Table.mem_keys_iff.2 ⟨info, hd⟩
  obtain ⟨⟨_, vs⟩, hvs, rfl⟩ := List.mem_map.1 hmem
  exact ⟨vs, hvs⟩

theorem Prepared.lookup_walk {c : Collection} {W : List (String × List Visit)} {s : Resolution}
    (h : Prepared c W s) {d : String} {vs : List Visit} (hw : (d, vs) ∈ W) :
    W.lookup d = some vs := by
  refine Table.lookup_of_mem ?_ hw
  have hp := h.ascending
  rwa [← h.paths] at hp

theorem Rooted.routed {s s' : Resolution} {root d : String} (h : Rooted s root d)
    (hr : Routed s s') : Rooted s' root d := by
  induction h with
  | top h he =>
    obtain ⟨r, h'⟩ := hr.info _ _ h
    exact .top h' he
  | inside h he _ ih =>
    obtain ⟨r, h'⟩ := hr.info _ _ h
    exact .inside h' he ih

theorem Arranged.routed {s s' : Resolution} (h : Arranged s) (hr : Routed s s') : Arranged s' where
  embedded d info p location hd hp := by
    obtain ⟨info₀, hd₀, heq⟩ := hr.of_info hd
    rw [heq] at hp
    obtain ⟨outer, r, houter, hrest⟩ := h.embedded d info₀ p location hd₀ hp
    obtain ⟨root, houter'⟩ := hr.info p outer houter
    exact ⟨_, r, houter', hrest⟩
  target p outer r hp hr' := by
    obtain ⟨outer₀, hp₀, heq⟩ := hr.of_info hp
    rw [heq] at hr'
    obtain ⟨d, info, hrt, hdt, hd, hby⟩ := h.target p outer₀ r hp₀ hr'
    obtain ⟨root, hd'⟩ := hr.info d info hd
    refine ⟨d, _, hrt, hdt.trans ?_, hd', hby⟩
    rw [hr.same]
    rfl
  nodup p outer hp := by
    obtain ⟨outer₀, hp₀, heq⟩ := hr.of_info hp
    rw [heq]
    exact h.nodup p outer₀ hp₀

theorem Routed.keeps {s s' : Resolution} (h : Routed s s') : s.Keeps s' := by
  rw [h.same]
  exact ⟨rfl, (Keeps.refl s).frame, (Keeps.refl s).entry, (Keeps.refl s).fixed⟩

/-- Documents that are in order were registered. -/
theorem Routed.exists_registered {s₁ s₂ s : Resolution} (hr : Routed s₂ s) (ho : s₁.Reordered s₂)
    {d : String} {info : DocumentInfo} (hd : s.info? d = some info) :
    ∃ info₁, s₁.info? d = some info₁ ∧ ∃ requests embeddedBy root,
      info = { info₁ with requests, embeddedBy, root } ∧
      requests.map (fun r => (r.link, r.location)) =
        info₁.requests.map fun r => (r.link, r.location) := by
  obtain ⟨info₂, hinfo₂, heq⟩ := hr.of_info hd
  have hmem : d ∈ s₁.documents.keys := ho.keys ▸ Table.mem_keys_iff.2 ⟨info₂, hinfo₂⟩
  obtain ⟨info₁, hinfo₁⟩ := Table.mem_keys_iff.1 hmem
  obtain ⟨requests, embeddedBy, h₂, hrequests⟩ := ho.info d info₁ hinfo₁
  cases hinfo₂.symm.trans h₂
  exact ⟨info₁, hinfo₁, requests, embeddedBy, info.root, heq, hrequests⟩

/-- What the phases before claiming leave. -/
theorem Catalog.prepared {c : Collection} {W : List (String × List Visit)} {s₁ s₂ s : Resolution}
    (hc : c.Described) (h : Catalog c W s₁) (ho : s₁.Reordered s₂) (ha : Arranged s₂)
    (hr : Routed s₂ s)
    (hroot : ∀ d info, s.info? d = some info → ∃ root, info.root = some root) :
    Prepared c W s := by
  have hkeeps : s₁.Keeps s := ho.keeps.trans hr.keeps
  have hregistry : s.registry = s₁.registry := by rw [hr.same, ho.same]
  constructor
  case options =>
    exact hkeeps.options.trans h.options
  case keys =>
    exact (hr.keys.trans ho.keys).trans h.keys
  case paths =>
    exact h.paths
  case ascending =>
    exact hc.sorted
  case info =>
    intro path info hinfo
    obtain ⟨info₁, hinfo₁, requests, embeddedBy, root, rfl, -⟩ := hr.exists_registered ho hinfo
    obtain ⟨hmem, htop, -, hhanded, -⟩ := h.info path info₁ hinfo₁
    exact ⟨hmem, htop.keeps hkeeps rfl rfl, hhanded⟩
  case root =>
    intro path info hinfo
    obtain ⟨root, hroot⟩ := hroot path info hinfo
    obtain ⟨hrooted, hmem⟩ := hr.root path info root hinfo hroot
    exact ⟨root, hroot, hrooted.routed hr, hmem⟩
  case walk =>
    intro path vs hp
    obtain ⟨info₁, hinfo₁, hwalk, hrequests⟩ := h.walk path vs hp
    have hmem : path ∈ s.documents.keys := by
      rw [hr.keys, ho.keys]
      exact Table.mem_keys_iff.2 ⟨info₁, hinfo₁⟩
    obtain ⟨info, hinfo⟩ := Table.mem_keys_iff.1 hmem
    obtain ⟨info₁', hinfo₁', requests, embeddedBy, root, rfl, hmap⟩ := hr.exists_registered ho hinfo
    cases hinfo₁.symm.trans hinfo₁'
    exact ⟨_, hinfo, hwalk.keeps hkeeps, hrequests ▸ hmap⟩
  case written =>
    exact h.written
  case unslotted =>
    rw [hregistry]
    exact h.unslotted
  case entries =>
    rw [hregistry]
    exact h.entries
  case numbering =>
    rw [hr.same, ho.same]
    exact h.numbering
  case roots =>
    intro root entries hlookup
    obtain ⟨hnil, info, hinfo, hby⟩ := hr.roots root entries hlookup
    obtain ⟨r, hinfo'⟩ := hr.info root info hinfo
    exact ⟨hnil, _, hinfo', hby⟩
  case sorted =>
    exact hr.sorted
  case arranged =>
    exact ha.routed hr
  case blank =>
    intro f frame hf
    refine h.blank f frame ?_
    rw [← hf, hr.same, ho.same]
    rfl
  case place =>
    rw [hregistry]
    exact h.place

theorem Catalog.structure_ends {c : Collection} {W : List (String × List Visit)} {s₁ : Resolution}
    (hc : c.Described) (h₁ : Catalog c W s₁) :
    Ends ResolveError.External Run.resolveStructure s₁ fun _ s => s₁.Reordered s ∧ Arranged s := by
  have hnodup : s₁.documents.keys.Nodup := by
    rw [h₁.keys]
    exact hc.sorted.imp fun hlt => (by rintro rfl; exact String.lt_irrefl _ hlt)
  exact Run.resolveStructure_ends hnodup fun d info hd => (h₁.info d info hd).2.2.1

/-- Only a cycle of embeddings keeps documents from being put in order. -/
theorem Catalog.order_ends {c : Collection} {W : List (String × List Visit)} {s₁ s₂ : Resolution}
    (hc : c.Described) (h₁ : Catalog c W s₁) (ho : s₁.Reordered s₂) (ha : Arranged s₂) :
    Ends s₂.ReportsCycle Run.orderDocuments s₂ fun _ s => Prepared c W s ∧ Routed s₂ s := by
  refine (Run.orderDocuments_ends ha (fun d info hd => ?_) ?_).mono fun _ s ⟨hr, hroot⟩ =>
    ⟨h₁.prepared hc ho ha hr hroot, hr⟩
  · have hmem : d ∈ s₁.documents.keys := ho.keys ▸ Table.mem_keys_iff.2 ⟨info, hd⟩
    obtain ⟨info₁, hinfo₁⟩ := Table.mem_keys_iff.1 hmem
    obtain ⟨requests, embeddedBy, hd', -⟩ := ho.info d info₁ hinfo₁
    cases hd.symm.trans hd'
    exact (h₁.info d info₁ hinfo₁).2.2.2.2
  · rw [ho.same]
    exact h₁.roots

/-- Documents that are registered are put in order, or there is something wrong with them. -/
theorem Catalog.arrange_ends {c : Collection} {W : List (String × List Visit)} {s₁ : Resolution}
    (hc : c.Described) (h₁ : Catalog c W s₁) :
    Ends ResolveError.External (do Run.resolveStructure; Run.orderDocuments) s₁ fun _ s =>
      Prepared c W s ∧ ∃ s₂, s₁.Reordered s₂ ∧ Routed s₂ s := by
  rw [Ends.bind_iff]
  refine (h₁.structure_ends hc).mono fun _ s₂ ⟨ho, ha⟩ => ?_
  refine ((h₁.order_ends hc ho ha).weaken fun e ⟨location, cycle, he, _⟩ => he ▸ id).mono ?_
  exact fun _ s ⟨hp, hr⟩ => ⟨hp, s₂, ho, hr⟩

/-- What registration has left is put in order, before slots are claimed. -/
structure Underlies (c : Collection) (W : List (String × List Visit)) (s₁ s : Resolution) :
    Prop where
  registered : Run.registerAll (c.documents.map Prod.snd) c.start = .ok () s₁
  catalog : Catalog c W s₁
  arranged : ∃ s₂, s₁.Reordered s₂ ∧ Routed s₂ s
  prepared : Prepared c W s

/-- The phases before claiming prepare it. -/
theorem Collection.Described.phases_spec {c : Collection} (h : c.Described)
    {Q : Unit → Resolution → Prop}
    (hQ : ∀ W s₁ s, Underlies c W s₁ s → After True (do Run.resolveRanges; Run.resolveValues) s Q) :
    After True c.phases c.start Q := by
  unfold Collection.phases
  rw [After.bind_iff]
  refine After.trivial fun _ s₁ hr => ?_
  obtain ⟨W, h₁⟩ := h.registerAll_spec.of_ok hr
  have harrange := (h₁.arrange_ends h).after
  rw [After.bind_iff] at harrange ⊢
  refine harrange.mono fun _ s₂ h₂ => ?_
  rw [After.bind_iff]
  exact h₂.mono fun _ s ⟨hp, ha⟩ => hQ W s₁ s ⟨hr, h₁, ha, hp⟩

/-! ## Steps of claiming -/

namespace Resolution

/-- Claiming adds to the slots of entries, to the numbering and to what is handed over. -/
structure Progress (s s' : Resolution) : Prop extends s.Keeps s' where
  registry : s'.registry = { s.registry with entries := s'.registry.entries }
  entries_size : s'.registry.entries.size = s.registry.entries.size
  slots : ∀ e entry, s.registry.entryAt? e = some entry → ∃ slot abbreviation,
    s'.registry.entryAt? e = some { entry with slot, abbreviation } ∧
    (slot = entry.slot ∨ ∃ q, slot = some q ∧ q.index < s'.numbering.layout.slots.size)
  frames_size : s'.frames.size = s.frames.size
  keys : s'.documents.keys = s.documents.keys
  info : ∀ d info, s.info? d = some info → ∃ handedRanges,
    s'.info? d = some { info with handedRanges }
  root_keys : s'.roots.keys = s.roots.keys
  size : s.numbering.layout.slots.size ≤ s'.numbering.layout.slots.size

namespace Progress

variable {s s' s'' : Resolution}

theorem refl (s : Resolution) : s.Progress s where
  toKeeps := .refl s
  registry := rfl
  entries_size := rfl
  slots _ entry h := ⟨entry.slot, entry.abbreviation, h, .inl rfl⟩
  frames_size := rfl
  keys := rfl
  info _ info h := ⟨info.handedRanges, h⟩
  root_keys := rfl
  size := Nat.le_refl _

theorem trans (h : s.Progress s') (h' : s'.Progress s'') : s.Progress s'' where
  toKeeps := h.toKeeps.trans h'.toKeeps
  registry := by rw [h'.registry, h.registry]
  entries_size := h'.entries_size.trans h.entries_size
  slots e entry he := by
    obtain ⟨slot, abbreviation, he', hs⟩ := h.slots e entry he
    obtain ⟨slot', abbreviation', he'', hs'⟩ := h'.slots e _ he'
    refine ⟨slot', abbreviation', he'', hs'.elim (fun hs' => ?_) .inr⟩
    rw [hs']
    exact hs.imp_right fun ⟨q, hq, hlt⟩ => ⟨q, hq, Nat.lt_of_lt_of_le hlt h'.size⟩
  frames_size := h'.frames_size.trans h.frames_size
  keys := h'.keys.trans h.keys
  info d info hd := by
    obtain ⟨handedRanges, hd'⟩ := h.info d info hd
    obtain ⟨handedRanges', hd''⟩ := h'.info d _ hd'
    exact ⟨handedRanges', hd''⟩
  root_keys := h'.root_keys.trans h.root_keys
  size := Nat.le_trans h.size h'.size

/-- The numbering changes, and ranges of roots. -/
theorem of_numbering {numbering : Numbering} {roots : Table (List RangeEntry)}
    (hk : roots.keys = s.roots.keys)
    (hn : s.numbering.layout.slots.size ≤ numbering.layout.slots.size) :
    s.Progress { s with numbering, roots } :=
  { refl s with
    slots := fun _ entry h => ⟨entry.slot, entry.abbreviation, h, .inl rfl⟩
    root_keys := hk
    size := hn }

theorem info_of {d : String} {info' : DocumentInfo} (h : s.Progress s') (hd : s'.info? d = some info') :
    ∃ info, s.info? d = some info ∧ info' = { info with handedRanges := info'.handedRanges } := by
  have hmem : d ∈ s.documents.keys := h.keys ▸ Table.mem_keys_iff.2 ⟨info', hd⟩
  obtain ⟨info, hinfo⟩ := Table.mem_keys_iff.1 hmem
  obtain ⟨handedRanges, hd'⟩ := h.info d info hinfo
  cases hd.symm.trans hd'
  exact ⟨info, hinfo, rfl⟩

theorem info?_eq_none {d : String} (h : s.Progress s') (hd : s'.info? d = none) :
    s.info? d = none := by
  cases hinfo : s.info? d with
  | none => rfl
  | some info =>
    obtain ⟨handedRanges, hd'⟩ := h.info d info hinfo
    cases hd.symm.trans hd'

/-- Frames stay where they are. -/
theorem ordered (h : s.Progress s') (ho : s.Ordered) : s'.Ordered := by
  intro f frame' p hf' hp
  have hlt := index_lt_of_frame? hf'
  rw [h.frames_size] at hlt
  obtain ⟨frame, hf⟩ : ∃ frame, s.frame? f = some frame := ⟨_, Array.getElem?_eq_getElem hlt⟩
  obtain ⟨frame'', hf'', ha⟩ := h.frame f frame hf
  cases hf'.symm.trans hf''
  exact ho f frame p hf (ha.1.symm.trans hp)

theorem documentFor? (h : s.Progress s') (link : Link) :
    s'.documentFor? link = s.documentFor? link := by
  have hisSome : ∀ d, (s'.info? d).isSome = (s.info? d).isSome := by
    intro d
    cases hd : s.info? d with
    | some info =>
      obtain ⟨handedRanges, hd'⟩ := h.info d info hd
      simp [hd']
    | none =>
      cases hd' : s'.info? d with
      | none => rfl
      | some info =>
        obtain ⟨info₀, hd₀, -⟩ := h.info_of hd'
        cases hd.symm.trans hd₀
  unfold Resolution.documentFor? Registry.address?
  rw [h.registry]
  simp only [hisSome]

end Progress

theorem Noted.progress {s s' : Resolution} (h : s.Noted s') : s.Progress s' where
  toKeeps := h.keeps
  registry := by rw [h.same]
  entries_size := by rw [h.same]
  slots e entry he := ⟨entry.slot, entry.abbreviation, by rw [h.same]; exact he, .inl rfl⟩
  frames_size := by rw [h.same]
  keys := by rw [h.same]
  info d info hd := ⟨info.handedRanges, by rw [h.same]; exact hd⟩
  root_keys := by rw [h.same]
  size := Nat.le_of_eq (by rw [h.same])

namespace Labeled

variable {s s' : Resolution} {f : FrameId} {h : Heading} {entry : EntryId} {inner : FrameId}
  {range : RangeId} {slot : SlotId} {below : RangeId} {n₁ n₂ : Numbering}

theorem numbering_eq (hl : s.Labeled s' f h entry inner range slot below n₁ n₂) :
    s'.numbering = n₂.withNested below h.nested := by rw [hl.same]

theorem frame? (hl : s.Labeled s' f h entry inner range slot below n₁ n₂) (g : FrameId) :
    s'.frame? g = (s.modifyKind inner (.withRange below)).frame? g := by
  rw [hl.same]
  rfl

theorem entryAt? (hl : s.Labeled s' f h entry inner range slot below n₁ n₂) (e : EntryId) :
    s'.registry.entryAt? e = if e = entry then (s.registry.entryAt? e).map fun e =>
        { e with slot := some slot, abbreviation := abbreviation { s with numbering := n₁ } range }
      else s.registry.entryAt? e := by
  rw [hl.same]
  exact Registry.entryAt?_modifyEntry ..

/-- A frame that has a range has had it before, or it is the one inside the node. -/
theorem frame_cases (hl : s.Labeled s' f h entry inner range slot below n₁ n₂)
    (hi : s.Inside f inner (IsSubRange (h.typeIn s.options))) {g : FrameId} {frame : Frame}
    {typ : String} {ids : Ordinals} {i : RangeId} (hg : s'.frame? g = some frame)
    (hk : frame.kind = .subRange typ ids (some i)) : s.frame? g = some frame ∨
      typ = h.typeIn s.options ∧ i = below ∧ frame.document = s.documentOf f := by
  rw [hl.frame?, frame?_modifyKind] at hg
  split at hg
  next heq =>
    obtain ⟨outer, old, houter, hold, -, hdocument, hsort⟩ := hi
    rw [heq, hold] at hg
    cases hg
    dsimp only at hk
    cases hkind : old.kind with
    | subRange typ' ids' before =>
      rw [hkind] at hk hsort
      cases hk
      exact .inr ⟨hsort, rfl, hdocument.trans (documentOf_eq houter).symm⟩
    | _ => simp [hkind, FrameKind.withRange] at hk
  · exact .inl hg

theorem sound (hl : s.Labeled s' f h entry inner range slot below n₁ n₂)
    (hs : s.numbering.layout.Sound) : s'.numbering.layout.Sound := by
  rw [hl.numbering_eq]
  exact ((hs.next hl.next).sub hl.sub).withNested _ _

theorem size_eq (hl : s.Labeled s' f h entry inner range slot below n₁ n₂) :
    s'.numbering.layout.slots.size = n₁.layout.slots.size := by
  rw [hl.numbering_eq, Numbering.slots_withNested, Layout.Sound.size_sub hl.sub]

theorem progress (hl : s.Labeled s' f h entry inner range slot below n₁ n₂)
    (hs : s.numbering.layout.Sound) : s.Progress s' where
  toKeeps := (Visited.heading f h entry inner range slot below n₁ n₂ hl).keeps
  registry := by
    rw [hl.same]
    rfl
  entries_size := by
    rw [hl.same]
    simp [Registry.modifyEntry]
  slots e en he := by
    rw [hl.entryAt?, he]
    split
    · exact ⟨some slot, _, rfl, .inr ⟨slot, rfl, hl.size_eq ▸ (hs.lt_of_next hl.next).1⟩⟩
    · exact ⟨en.slot, en.abbreviation, rfl, .inl rfl⟩
  frames_size := by
    rw [hl.same]
    simp [modifyKind]
  keys := by rw [hl.same]
  info d info hd := by
    refine ⟨info.handedRanges, ?_⟩
    rw [hl.same]
    exact hd
  root_keys := by rw [hl.same]
  size := by
    rw [hl.size_eq]
    exact (hs.lt_of_next hl.next).2

end Labeled

namespace HandedOver

variable {s s' : Resolution} {f : FrameId} {link : Link} {document : String} {info : DocumentInfo}
  {range handle : RangeId} {n : Numbering}

theorem info? (hh : s.HandedOver s' f link document info range handle n) (d : String) :
    s'.info? d = if d = document then (s.info? d).map fun info =>
        { info with handedRanges := (s.options.sectionType, handle) :: info.handedRanges }
      else s.info? d := by
  rw [hh.same, info?_modifyInfo]
  rfl

theorem numbering_eq (hh : s.HandedOver s' f link document info range handle n) :
    s'.numbering = n := by
  rw [hh.same]
  rfl

/-- A document that has a range at hand has had it before, or it is the one that got the handle. -/
theorem handed_cases (hh : s.HandedOver s' f link document info range handle n) {d typ : String}
    {info' : DocumentInfo} {i : RangeId} (hd : s'.info? d = some info')
    (hm : (typ, i) ∈ info'.handedRanges) :
    (∃ info, s.info? d = some info ∧ (typ, i) ∈ info.handedRanges) ∨
      d = document ∧ typ = s.options.sectionType ∧ i = handle := by
  rw [hh.info?] at hd
  split at hd
  next heq =>
    obtain ⟨old, hold, rfl⟩ := Option.map_eq_some_iff.1 hd
    rcases List.mem_cons.1 hm with hm | hm
    · cases hm
      exact .inr ⟨heq, rfl, rfl⟩
    · exact .inl ⟨old, hold, hm⟩
  · exact .inl ⟨info', hd, hm⟩

theorem sound (hh : s.HandedOver s' f link document info range handle n)
    (hs : s.numbering.layout.Sound) : s'.numbering.layout.Sound := by
  rw [hh.numbering_eq]
  exact hs.assign hh.assign

theorem progress (hh : s.HandedOver s' f link document info range handle n)
    (hs : s.numbering.layout.Sound) : s.Progress s' where
  toKeeps := (Visited.embedding f default default link document info range handle n hh).keeps
  registry := by
    rw [hh.same]
    rfl
  entries_size := by
    rw [hh.same]
    rfl
  slots e en he := by
    refine ⟨en.slot, en.abbreviation, ?_, .inl rfl⟩
    rw [hh.same]
    exact he
  frames_size := by
    rw [hh.same]
    rfl
  keys := by rw [hh.same, keys_modifyInfo]
  info d info hd := by
    rw [hh.info?, hd]
    split
    · exact ⟨_, rfl⟩
    · exact ⟨info.handedRanges, rfl⟩
  root_keys := by
    rw [hh.same]
    rfl
  size := by
    rw [hh.numbering_eq, hs.size_assign hh.assign]
    exact Nat.le_succ _

end HandedOver

/-- What the visits of claiming do is progress, and the links of the layout stay sound. -/
theorem Visited.progress {s s' : Resolution} {v : Visit} (h : s.Visited s' v)
    (hs : s.numbering.layout.Sound) : s.Progress s' ∧ s'.numbering.layout.Sound := by
  cases h with
  | text _ _ h | term _ _ _ _ h =>
    refine ⟨h.progress, ?_⟩
    rw [h.same]
    exact hs
  | expansion _ _ _ _ h =>
    rw [h]
    exact ⟨.refl s, hs⟩
  | embedding _ _ _ _ _ _ _ _ _ hh => exact ⟨hh.progress hs, hh.sound hs⟩
  | heading _ _ _ _ _ _ _ _ _ hl => exact ⟨hl.progress hs, hl.sound hs⟩

/-! ## Opening ranges -/

/-- The ranges in use in a document, for the label types of a root. -/
def inUse (s : Resolution) (root document : String) : List (String × RangeId) :=
  ((s.roots.lookup root).getD []).filterMap fun entry =>
    (s.documentRange? document entry.typ).map fun range => (entry.typ, range)

/-- The resolution with a new range for a label type of a root document. -/
def withRange (s : Resolution) (root typ : String) (settings : Option TypeSettings)
    (location : Location) (separator : String) (rule : LabelRule) : Resolution :=
  let master := settings.bind TypeSettings.master
  let lead := master.map fun master => Lead.ofMaster master (settings.bind TypeSettings.limit)
  let opened := s.numbering.newRange typ ((settings.map TypeSettings.abbreviation).getD "") lead
  { s with
    numbering := opened.2.setRule opened.1 separator (some rule)
    roots := s.roots.change root
      (· ++ [{ typ, range := opened.1, master, location }]) }

theorem withRange_progress (s : Resolution) (root typ : String) (settings : Option TypeSettings)
    (location : Location) (separator : String) (rule : LabelRule) :
    s.Progress (s.withRange root typ settings location separator rule) := by
  refine .of_numbering (Table.keys_change ..) ?_
  change _ ≤ (s.numbering.newRange _ _ _).2.layout.slots.size
  rw [Numbering.layout_newRange]
  exact Nat.le_refl _

theorem withRange_sound {s : Resolution} (h : s.numbering.layout.Sound) (root typ : String)
    (settings : Option TypeSettings) (location : Location) (separator : String)
    (rule : LabelRule) :
    (s.withRange root typ settings location separator rule).numbering.layout.Sound :=
  (h.newRange _ _ _).setRule _ _ _

end Resolution

namespace Run

variable {s : Resolution} {R : ResolveError → Prop}

theorem openRange_ends {root document typ : String} {settings : Option TypeSettings} :
    Ends ResolveError.External (openRange root document typ settings) s fun _ s' =>
      ∃ separator rule location, newRule s.options typ settings = .ok (separator, rule) ∧
        s' = s.withRange root typ settings location separator rule := by
  unfold openRange
  dsimp only
  rw [Ends.bind_iff, Ends.get_iff]
  cases hrule : newRule s.options typ settings with
  | error e => exact id
  | ok rule =>
    obtain ⟨separator, rule⟩ := rule
    dsimp only
    rw [Ends.bind_iff, Ends.pure_iff]
    exact ⟨separator, rule, _, rfl, rfl⟩

/-- A range is opened for a type unless there is one. -/
theorem provideRange_ends {root document : String} {settings : Settings} {typ : String} :
    Ends ResolveError.External (provideRange root document settings typ) s fun _ s' =>
      (s' = s ∧ (s.rangeFor? root typ).isSome) ∨
      (s.rangeFor? root typ = none ∧ ∃ separator rule location,
        newRule s.options typ (settings.lookup typ) = .ok (separator, rule) ∧
        s' = s.withRange root typ (settings.lookup typ) location separator rule) := by
  unfold provideRange
  dsimp only
  rw [Ends.bind_iff, Ends.get_iff]
  cases hr : s.rangeFor? root typ with
  | none => exact openRange_ends.mono fun _ s' h => .inr ⟨rfl, h⟩
  | some entry =>
    rw [Option.isNone_some, if_neg Bool.false_ne_true]
    split
    · exact .inl ⟨rfl, rfl⟩
    · split
      · exact id
      · exact .inl ⟨rfl, rfl⟩

/-- A type that is added to a trail was not on it. -/
theorem followMaster_ends {entries : List RangeEntry} {trail : Trail} {entry : RangeEntry}
    (he : entry ∈ entries) (ht : trail.entries ⊆ entries.map RangeEntry.typ) :
    Ends ResolveError.External (followMaster trail entry) s fun trail' s' => s' = s ∧
      trail'.entries ⊆ entries.map RangeEntry.typ ∧
      trail'.entries.length = trail.entries.length + 1 := by
  unfold followMaster Trail.add?
  split
  next trail' hadd =>
    split at hadd <;> cases hadd
    refine ⟨rfl, List.append_subset.2 ⟨ht, ?_⟩, List.length_append⟩
    exact List.cons_subset.2 ⟨List.mem_map_of_mem he, List.nil_subset _⟩
  · exact id

/-- The types on a trail are different ones, so no trail is longer than there are entries. -/
theorem length_le_of_subset {entries : List RangeEntry} {trail : Trail}
    (ht : trail.entries ⊆ entries.map RangeEntry.typ) :
    trail.entries.length ≤ entries.length := by
  have hle := trail.nodup.length_le_of_subset ht
  rwa [List.length_map] at hle

theorem masterEntry_ends {entries : List RangeEntry} {entry : RangeEntry} {master : String} :
    Ends ResolveError.External (masterEntry entries entry master) s fun entry' s' => s' = s ∧
      entry' ∈ entries := by
  unfold masterEntry
  rw [ends_orFail_iff]
  exact ⟨fun entry' h => ⟨rfl, List.mem_of_find?_eq_some h⟩, fun _ => id⟩

theorem checkMasters_ends {entries : List RangeEntry} {fuel : Nat} {trail : Trail}
    {entry : RangeEntry} (he : entry ∈ entries) (ht : trail.entries ⊆ entries.map RangeEntry.typ)
    (hfuel : entries.length < fuel + trail.entries.length) :
    Ends ResolveError.External (checkMasters entries fuel trail entry) s fun _ s' => s' = s := by
  induction fuel generalizing trail entry with
  | zero =>
    have := length_le_of_subset ht
    omega
  | succ fuel ih =>
    unfold checkMasters
    rw [Ends.bind_iff]
    refine (followMaster_ends he ht).mono ?_
    rintro trail' _ ⟨rfl, ht', hlen⟩
    cases entry.master with
    | none => rfl
    | some master =>
      dsimp only
      rw [Ends.bind_iff]
      refine masterEntry_ends.mono ?_
      rintro entry' _ ⟨rfl, he'⟩
      exact ih he' ht' (by omega)

/-- Opens the ranges that a document uses, and notes which ones are in use. -/
def openRanges (document : String) (info : DocumentInfo) : Run Unit := do
  let root := info.root.getD document
  info.ranges.forM (provideRange root document info.document.settings)
  let entries := ((← get).roots.lookup root).getD []
  entries.forM (checkMasters entries (entries.length + 1) {})
  modify fun s =>
    { s with numbering := s.numbering.setActive (entries.filterMap fun entry =>
        (s.documentRange? document entry.typ).map fun range => (entry.typ, range)) }

/-- What is kept by new ranges holds when the ranges in use in a document are noted; `J` is about
the types that are seen to. -/
theorem openRanges_ends {document : String} {info : DocumentInfo}
    {J : List String → Resolution → Prop} {K : Resolution → Prop}
    (hr : ∀ pre typ t location separator rule, J pre t → typ ∈ info.ranges →
      t.rangeFor? (info.root.getD document) typ = none →
      newRule t.options typ (info.document.settings.lookup typ) = .ok (separator, rule) →
      J (pre ++ [typ]) (t.withRange (info.root.getD document) typ
        (info.document.settings.lookup typ) location separator rule))
    (hk : ∀ pre typ t, J pre t → (t.rangeFor? (info.root.getD document) typ).isSome →
      J (pre ++ [typ]) t)
    (ha : ∀ t, J info.ranges t → K { t with
      numbering := t.numbering.setActive (t.inUse (info.root.getD document) document) })
    (h : J [] s) : Ends ResolveError.External (openRanges document info) s fun _ s' => K s' := by
  unfold openRanges
  dsimp only
  rw [Ends.bind_iff]
  refine (Ends.forM_split (J := fun pre _ t => J pre t) (fun pre typ post t hsplit ht => ?_) h).mono
    fun _ s₁ h₁ => ?_
  · refine provideRange_ends.mono ?_
    rintro _ s' (⟨rfl, hsome⟩ | ⟨hnone, separator, rule, location, hrule, rfl⟩)
    · exact hk pre typ s' ht hsome
    · exact hr pre typ t location separator rule ht (by simp [← hsplit]) hnone hrule
  · rw [Ends.bind_iff, Ends.get_iff, Ends.bind_iff]
    refine (Ends.forM (I := (· = s₁)) (fun entry he t ht => ?_) rfl).mono ?_
    · refine (checkMasters_ends he (List.nil_subset _) (Nat.lt_succ_self _)).mono ?_
      rintro _ s' rfl
      exact ht
    · rintro _ s₂ rfl
      rw [Ends.modify_iff]
      exact ha s₂ h₁

theorem openRanges_spec {document : String} {info : DocumentInfo} {J K : Resolution → Prop}
    (hr : ∀ t typ location separator rule, J t → typ ∈ info.ranges →
      t.rangeFor? (info.root.getD document) typ = none →
      newRule t.options typ (info.document.settings.lookup typ) = .ok (separator, rule) →
      J (t.withRange (info.root.getD document) typ (info.document.settings.lookup typ) location
        separator rule))
    (ha : ∀ t, J t → K { t with
      numbering := t.numbering.setActive (t.inUse (info.root.getD document) document) })
    (h : J s) : After True (openRanges document info) s fun _ s' => K s' :=
  (openRanges_ends (J := fun _ => J) (fun _ typ t => hr t typ) (fun _ _ _ ht _ => ht) ha h).after

theorem openRanges_progress (document : String) (info : DocumentInfo)
    (hs : s.numbering.layout.Sound) :
    After True (openRanges document info) s fun _ s' =>
      s.Progress s' ∧ s'.numbering.layout.Sound := by
  refine openRanges_spec (J := fun t => s.Progress t ∧ t.numbering.layout.Sound)
    (K := fun t => s.Progress t ∧ t.numbering.layout.Sound) ?_ ?_ ⟨.refl s, hs⟩
  · rintro t typ location separator rule ⟨ht, hsound⟩ - - -
    exact ⟨ht.trans (withRange_progress ..), withRange_sound hsound ..⟩
  · rintro t ⟨ht, hsound⟩
    exact ⟨ht.trans (.of_numbering rfl (Nat.le_refl _)), hsound.setActive _⟩

/-- Claims the slots of a document that has the walk that `W` names. -/
def claimVisits (W : List (String × List Visit)) (document : String) : Run Unit := do
  match (← get).info? document with
  | none => return
  | some info =>
    openRanges document info
    ((W.lookup document).getD []).forM labelVisit

theorem visits_progress {vs : List Visit} (hv : ∀ v ∈ vs, s.Ready v)
    (hs : s.numbering.layout.Sound) :
    After True (vs.forM labelVisit) s fun _ s' => s.Progress s' ∧ s'.numbering.layout.Sound := by
  refine After.forM (I := fun t => s.Progress t ∧ t.numbering.layout.Sound) ?_ ⟨.refl s, hs⟩
  rintro v hmem t ⟨ht, hsound⟩
  refine (labelVisit_spec ((hv v hmem).keeps ht.toKeeps)).mono fun _ t' hvisited => ?_
  obtain ⟨hp, hsound'⟩ := hvisited.progress hsound
  exact ⟨ht.trans hp, hsound'⟩

theorem claimDocument_iff {fuel : Nat} {document : String} {Q : Unit → Resolution → Prop} :
    Ends R (claimDocument (fuel + 1) document) s Q ↔
      match s.info? document with
      | none => Q () s
      | some info => Ends R (openRanges document info) s fun _ s₁ =>
          Ends R (labelWithin (s₁.frames.size + 1) info.frame info.document.nodes) s₁ fun _ s₂ =>
            Ends R (info.requests.forM fun request =>
              match request.target with
              | some target => claimDocument fuel target
              | none => pure ()) s₂ Q := by
  rw [claimDocument, Ends.bind_iff, Ends.get_iff]
  cases s.info? document with
  | none => exact Iff.rfl
  | some info =>
    unfold openRanges
    constructor
    · intro h
      simp only [Ends.bind_iff, Ends.get_iff, Ends.modify_iff] at h ⊢
      exact h
    · intro h
      simp only [Ends.bind_iff, Ends.get_iff, Ends.modify_iff] at h ⊢
      exact h

end Run

/-! ## The order of documents -/

namespace Resolution

/-- A document and the documents below it, in the order they are claimed. -/
def below (s : Resolution) : Nat → String → List String
  | 0, _ => []
  | fuel + 1, document =>
    match s.info? document with
    | none => []
    | some info => document :: (info.requests.filterMap EmbeddingRequest.target).flatMap
        (below s fuel)

/-- No chain of embeddings below a document is as long as `fuel`. -/
def Bounded (s : Resolution) : Nat → String → Prop
  | 0, _ => False
  | fuel + 1, document => ∀ info r target, s.info? document = some info → r ∈ info.requests →
      r.target = some target → Bounded s fuel target

end Resolution

namespace Run

variable {c : Collection} {W : List (String × List Visit)} {s₀ s : Resolution}
  {R : ResolveError → Prop}

theorem claimVisits_progress (hp : Prepared c W s₀) (hs : s₀.Progress s)
    (hsound : s.numbering.layout.Sound) (document : String) :
    After True (claimVisits W document) s fun _ s' =>
      s.Progress s' ∧ s'.numbering.layout.Sound := by
  unfold claimVisits
  rw [After.bind_iff, After.get_iff]
  cases hinfo : s.info? document with
  | none => exact ⟨.refl s, hsound⟩
  | some info =>
    dsimp only
    rw [After.bind_iff]
    refine (openRanges_progress document info hsound).mono fun _ s₁ ⟨h₁, hsound₁⟩ => ?_
    refine (visits_progress (fun v hv => ?_) hsound₁).mono fun _ s₂ ⟨h₂, hsound₂⟩ =>
      ⟨h₁.trans h₂, hsound₂⟩
    cases hw : W.lookup document with
    | none => simp [hw] at hv
    | some vs =>
      rw [hw, Option.getD_some] at hv
      obtain ⟨info₀, -, hwalk, -⟩ := hp.walk document vs (Table.mem_of_lookup hw)
      exact (hwalk.ready v hv).keeps (hs.trans h₁).toKeeps

/-- If documents can be taken in order one by one, so can a list of them. -/
theorem claimDocuments_of_order {fuel : Nat} {ds : List String}
    (ih : ∀ document ∈ ds, ∀ s, s₀.Progress s → s.numbering.layout.Sound →
      ∀ Q : Unit → Resolution → Prop, Ends R ((s₀.below fuel document).forM (claimVisits W)) s Q →
      Ends R (claimDocument fuel document) s fun a s' => s₀.Bounded fuel document ∧
        (s₀.Progress s' ∧ s'.numbering.layout.Sound) ∧ Q a s')
    (hs : s₀.Progress s) (hsound : s.numbering.layout.Sound) {Q : Unit → Resolution → Prop}
    (h : Ends R ((ds.flatMap (s₀.below fuel)).forM (claimVisits W)) s Q) :
    Ends R (ds.forM (claimDocument fuel)) s fun a s' =>
      (∀ document ∈ ds, s₀.Bounded fuel document) ∧
        (s₀.Progress s' ∧ s'.numbering.layout.Sound) ∧ Q a s' := by
  induction ds generalizing s with
  | nil => exact ⟨by simp, ⟨hs, hsound⟩, h⟩
  | cons d ds ihd =>
    rw [List.flatMap_cons, Ends.forM_append] at h
    rw [Ends.forM_cons]
    refine (ih d (by simp) s hs hsound _ h).mono ?_
    rintro _ s₁ ⟨hb, ⟨hs₁, hsound₁⟩, h⟩
    refine (ihd (fun e he => ih e (by simp [he])) hs₁ hsound₁ h).mono ?_
    exact fun _ s' ⟨hbs, h⟩ => ⟨List.forall_mem_cons.2 ⟨hb, hbs⟩, h⟩

/-- Claiming a document and all documents below it comes to claiming them one after the other.
Unless all errors are worth `R`, there has to be enough fuel for the documents and the
expansions. -/
theorem claimDocument_of_order (hp : Prepared c W s₀) (fuel : Nat) (document : String)
    (hR : (∀ e, R e) ∨ s₀.Bounded fuel document ∧ s₀.Ordered)
    (hs : s₀.Progress s) (hsound : s.numbering.layout.Sound) {Q : Unit → Resolution → Prop}
    (h : Ends R ((s₀.below fuel document).forM (claimVisits W)) s Q) :
    Ends R (claimDocument fuel document) s fun a s' => s₀.Bounded fuel document ∧
      (s₀.Progress s' ∧ s'.numbering.layout.Sound) ∧ Q a s' := by
  induction fuel generalizing document s Q with
  | zero => exact hR.elim (fun hR => hR _) fun h => h.1.elim
  | succ fuel ih =>
    rw [claimDocument_iff]
    cases hinfo : s.info? document with
    | none =>
      have hnone := hs.info?_eq_none hinfo
      rw [below, hnone] at h
      exact ⟨fun info r target h => by simp [hnone] at h, ⟨hs, hsound⟩, h⟩
    | some info =>
      obtain ⟨info₀, hinfo₀, heq⟩ := hs.info_of hinfo
      rw [below, hinfo₀] at h
      dsimp only at h ⊢
      rw [Ends.forM_cons] at h
      unfold claimVisits at h
      rw [Ends.bind_iff, Ends.get_iff, hinfo] at h
      dsimp only at h
      rw [Ends.bind_iff] at h
      refine (h.inspect (openRanges_progress document info hsound)).mono
        fun _ s₁ ⟨⟨h₁, hsound₁⟩, h⟩ => ?_
      obtain ⟨vs, hw⟩ := hp.exists_walk hinfo₀
      have hw := hp.lookup_walk hw
      rw [hw, Option.getD_some] at h
      obtain ⟨info₀', hinfo₀', hwalk, -⟩ := hp.walk document vs (Table.mem_of_lookup hw)
      cases hinfo₀.symm.trans hinfo₀'
      have hs₁ := hs.trans h₁
      have hwalk := hwalk.keeps hs₁.toKeeps
      have hframe : info.frame = info₀.frame ∧ info.document = info₀.document ∧
          info.requests = info₀.requests := by
        rw [heq]
        exact ⟨rfl, rfl, rfl⟩
      rw [← hframe.1, ← hframe.2.1] at hwalk
      rw [← hframe.2.2] at h
      have hvisits := h.inspect (visits_progress hwalk.ready hsound₁)
      refine (label_tour.of_visits hwalk (hR.imp_right fun h => hs₁.ordered h.2) (Nat.le_refl _)
        hvisits).mono ?_
      rintro _ s₂ ⟨-, ⟨h₂, hsound₂⟩, h⟩
      rw [forM_filterMap (g := EmbeddingRequest.target) (f := claimDocument fuel)
        (fun r target ht => by rw [ht]) (fun r ht => by rw [ht])]
      refine (claimDocuments_of_order (fun target ht s hs hsound Q h => ih target ?_ hs hsound h)
        (hs₁.trans h₂) hsound₂ h).mono fun _ s' ⟨hb, h⟩ => ⟨?_, h⟩
      · obtain ⟨r, hr, ht⟩ := List.mem_filterMap.1 ht
        exact hR.imp_right fun h => ⟨h.1 info₀ r target hinfo₀ (hframe.2.2 ▸ hr) ht, h.2⟩
      · intro info' r target hinfo' hr ht
        cases hinfo₀.symm.trans hinfo'
        exact hb target (List.mem_filterMap.2 ⟨r, hframe.2.2 ▸ hr, ht⟩)

end Run

namespace Resolution

variable {s : Resolution}

/-- All documents, in the order they are claimed. -/
def order (s : Resolution) : List String :=
  s.roots.keys.flatMap (s.below (s.documents.length + 1))

theorem Bounded.mem_below {fuel : Nat} {d : String} (h : s.Bounded fuel d) {info : DocumentInfo}
    (hd : s.info? d = some info) : d ∈ s.below fuel d := by
  cases fuel with
  | zero => exact h.elim
  | succ fuel => simp [below, hd]

/-- The documents below a root are found where its fuel is enough. -/
theorem Bounded.exists_below {fuel : Nat} {root d : String} (h : s.Bounded fuel root)
    (ha : Arranged s) (hr : Rooted s root d) :
    ∃ k, s.Bounded k d ∧ ∀ e ∈ s.below k d, e ∈ s.below fuel root := by
  induction hr with
  | top => exact ⟨fuel, h, fun _ he => he⟩
  | @inside d p info location hd hby _ ih =>
    obtain ⟨k, hk, hsub⟩ := ih
    obtain ⟨outer, r, houter, hr, ht, -⟩ := ha.embedded d info p location hd hby
    cases k with
    | zero => exact hk.elim
    | succ k =>
      refine ⟨k, hk outer r d houter hr ht, fun e he => hsub e ?_⟩
      rw [below, houter]
      refine List.mem_cons_of_mem _ (List.mem_flatMap.2 ⟨d, ?_, he⟩)
      exact List.mem_filterMap.2 ⟨r, hr, ht⟩

end Resolution

/-- Every document has its place in the order. -/
theorem Prepared.mem_order {c : Collection} {W : List (String × List Visit)} {s : Resolution}
    (hp : Prepared c W s) (hb : ∀ root ∈ s.roots.keys, s.Bounded (s.documents.length + 1) root)
    {d : String} {info : DocumentInfo} (hd : s.info? d = some info) : d ∈ s.order := by
  obtain ⟨root, -, hrooted, hmem⟩ := hp.root d info hd
  obtain ⟨k, hk, hsub⟩ := (hb root hmem).exists_below hp.arranged hrooted
  exact List.mem_flatMap.2 ⟨root, hmem, hsub d (hk.mem_below hd)⟩

namespace Run

variable {c : Collection} {W : List (String × List Visit)} {s₀ : Resolution}
  {R : ResolveError → Prop}

/-- Binds labels to the slots of all documents below some roots. -/
def bindRoots (roots : List String) : Run Unit :=
  roots.forM fun root => do
    let entries := ((← get).roots.lookup root).getD []
    let _ ← entries.foldlM (bindLabels entries (entries.length + 1) {}) []

/-- All documents are claimed one after the other, and then labels are bound. -/
theorem resolveRanges_of_order (hp : Prepared c W s₀)
    (hR : (∀ e, R e) ∨
      (∀ root ∈ s₀.roots.keys, s₀.Bounded (s₀.documents.length + 1) root) ∧ s₀.Ordered)
    {Q : Unit → Resolution → Prop}
    (h : Ends R (s₀.order.forM (claimVisits W)) s₀ fun _ s =>
      s₀.Progress s → s.numbering.layout.Sound → (∀ d info, s₀.info? d = some info → d ∈ s₀.order) →
      Ends R (bindRoots s₀.roots.keys) s Q) :
    Ends R resolveRanges s₀ Q := by
  have hsound : s₀.numbering.layout.Sound := by
    rw [hp.numbering]
    exact .empty
  unfold resolveRanges
  rw [Ends.bind_iff, Ends.get_iff]
  dsimp only
  rw [Ends.bind_iff]
  refine (claimDocuments_of_order (fun root hroot s hs hsound Q h =>
    claimDocument_of_order hp _ root (hR.imp_right fun h => ⟨h.1 root hroot, h.2⟩) hs hsound h)
    (.refl s₀) hsound h).mono ?_
  rintro _ s ⟨hb, ⟨hs, hsound⟩, h⟩
  exact h hs hsound fun d info hd => hp.mem_order hb hd

end Run

end Folio
