import Folio.Proofs.Resolution.Outlined
import Folio.Proofs.Resolution.Orderly

/-!
# Claiming across documents

A document is claimed after the one that embeds it, and in between come other documents. So what a
document needs when its turn comes has to last: a root needs that nothing is claimed in it yet, and
an embedded document needs the slot that was handed over to it (`Resolution.Awaits`). It does last,
because the turn of a document leaves all other ones alone (`Resolution.Spares`).

`Run.claimVisits_awaited` is the turn of a document: it claims the places of the outline where the
document stands.
-/

namespace Folio

open Resolution

namespace Resolution

/-! ## Documents below each other -/

/-- A document is embedded in another one, at some depth. -/
inductive Under (s : Resolution) (d : String) : String → Prop
  | refl : Under s d d
  | inside {e p : String} {info : DocumentInfo} {location : Location} (h : s.info? e = some info)
    (he : info.embeddedBy = some (p, location)) (hp : Under s d p) : Under s d e

variable {s : Resolution} {d e p root : String}

theorem Under.trans (h : s.Under d p) (h' : s.Under p e) : s.Under d e := by
  induction h' with
  | refl => exact h
  | inside h he _ ih => exact .inside h he ih

end Resolution

variable {s : Resolution} {d e root : String}

theorem Rooted.under (h : Rooted s root d) : s.Under root d := by
  induction h with
  | top => exact .refl
  | inside h he _ ih => exact .inside h he ih

theorem Rooted.of_under (h : Rooted s root d) (h' : s.Under d e) : Rooted s root e := by
  induction h' with
  | refl => exact h
  | inside h he _ ih => exact .inside h he ih

/-- No document embeds one that it is in. -/
theorem Rooted.not_embeds (h : Rooted s root e) (h' : s.Under d e) {info : DocumentInfo}
    {location : Location} (hd : s.info? d = some info) : info.embeddedBy ≠ some (e, location) := by
  induction h generalizing d info location with
  | top h he =>
    cases h' with
    | refl =>
      cases h.symm.trans hd
      simp [he]
    | inside h₂ he₂ =>
      cases h.symm.trans h₂
      simp [he] at he₂
  | inside h he hp ih =>
    intro hby
    cases h' with
    | refl =>
      cases h.symm.trans hd
      cases he.symm.trans hby
      exact ih .refl h he
    | inside h₂ he₂ hu =>
      cases h.symm.trans h₂
      cases he.symm.trans he₂
      exact ih (Under.trans (.inside hd hby .refl) hu) h he

/-- Documents that lie in different documents of one document are different. -/
theorem Rooted.separate {a b : String} {ia ib : DocumentInfo} {la lb : Location}
    (hr : Rooted s root d) (ha : s.info? a = some ia) (hb : s.info? b = some ib)
    (hia : ia.embeddedBy = some (d, la)) (hib : ib.embeddedBy = some (d, lb)) (hne : a ≠ b)
    (h : s.Under a e) : ¬s.Under b e := by
  induction h with
  | refl =>
    intro hu
    cases hu with
    | refl => exact hne rfl
    | inside h he hu =>
      cases ha.symm.trans h
      cases hia.symm.trans he
      exact hr.not_embeds hu hb hib
  | inside h he hu ih =>
    intro hu'
    cases hu' with
    | refl =>
      cases hb.symm.trans h
      cases hib.symm.trans he
      exact hr.not_embeds hu ha hia
    | inside h' he' hu' =>
      cases h.symm.trans h'
      cases he.symm.trans he'
      exact ih hu'

theorem Prepared.rooted {c : Collection} {W : List (String × List Visit)} (hp : Prepared c W s)
    {info : DocumentInfo} (hd : s.info? d = some info) :
    ∃ root, info.root = some root ∧ Rooted s root d := by
  obtain ⟨root, hroot, hr, -⟩ := hp.root d info hd
  exact ⟨root, hroot, hr⟩

/-! ## The walk of a document -/

namespace Prepared

variable {c : Collection} {W : List (String × List Visit)} {vs : List Visit} {info : DocumentInfo}

/-- Entries on the walk of a document are registered for it. -/
theorem registered (hp : Prepared c W s) (hw : (d, vs) ∈ W) {entry : EntryId}
    (he : entry ∈ vs.filterMap Visit.entry?) : ∃ typ, s.Registered entry d typ := by
  obtain ⟨v, hv, hve⟩ := List.mem_filterMap.1 he
  obtain ⟨info, hinfo, hwalk, -⟩ := hp.walk d vs hw
  have hready := hwalk.ready v hv
  have hbelongs := hwalk.belongs (hp.info d info hinfo).2.1.belongs v hv
  cases v with
  | heading f h e inner =>
    cases hve
    obtain ⟨frame, hf, hd⟩ := hbelongs.frame
    rw [← hd, ← documentOf_eq hf]
    exact ⟨_, hready.2.2⟩
  | _ => cases hve

theorem goals_eq (hp : Prepared c W s) (hw : (d, vs) ∈ W) (hd : s.info? d = some info) :
    vs.filterMap s.goal? = info.requests.filterMap fun r => s.documentFor? r.link := by
  obtain ⟨info', hinfo', -, hrequests⟩ := hp.walk d vs hw
  cases hd.symm.trans hinfo'
  have h := congrArg (List.filterMap fun p : Link × Location => s.documentFor? p.1) hrequests
  rw [List.filterMap_map, List.filterMap_map, List.filterMap_filterMap] at h
  refine Eq.trans (congrArg (List.filterMap · vs) ?_) h.symm
  funext v
  cases v <;> rfl

/-- A document that is embedded is the target of a request. -/
theorem target_of_documentFor? (hp : Prepared c W s) (hd : s.info? d = some info)
    {r : EmbeddingRequest} (hr : r ∈ info.requests) (he : s.documentFor? r.link = some e) :
    r.target = some e := by
  obtain ⟨e', -, ht, rfl, -⟩ := hp.arranged.target d info r hd hr
  rw [ht, hp.targetOf_eq he]

theorem untangled (hp : Prepared c W s) (hw : (d, vs) ∈ W) (hd : s.info? d = some info) :
    s.Untangled info.frame vs := by
  obtain ⟨root, -, hr⟩ := hp.rooted hd
  refine ⟨?_, ?_, ?_⟩
  · have hnodup : ((W.flatMap Prod.snd).filterMap Visit.entry?).Nodup := by
      refine List.Nodup.of_map EntryId.index ?_
      rw [hp.entries]
      exact List.nodup_range
    refine hnodup.sublist (List.Sublist.filterMap _ ?_)
    obtain ⟨pre, post, rfl⟩ := List.append_of_mem hw
    rw [List.flatMap_append, List.flatMap_cons]
    exact (List.sublist_append_left vs _).trans (List.sublist_append_right _ _)
  · rw [hp.goals_eq hw hd, List.Nodup, List.pairwise_filterMap]
    have hnodup := hp.arranged.nodup d info hd
    rw [List.Nodup, List.pairwise_map] at hnodup
    refine hnodup.imp_of_mem fun {a b} ha hb hne x hx y hy => ?_
    rintro rfl
    exact hne ((hp.target_of_documentFor? hd ha hx).trans (hp.target_of_documentFor? hd hb hy).symm)
  · obtain ⟨frame, hf, -, hdoc, -⟩ := (hp.info d info hd).2.1.frame
    rw [documentOf_eq hf, hdoc]
    intro hmem
    obtain ⟨v, hv, hg⟩ := List.mem_filterMap.1 hmem
    cases v with
    | embedding f key location link =>
      obtain ⟨info', hinfo', hby⟩ := hp.embeddedBy_of_visit hw hv hg
      exact hr.not_embeds .refl hinfo' hby
    | _ => cases hg

end Prepared

/-! ## References and embeddings -/

/-- Where two lists match, they do so at each position. -/
theorem getElem?_of_forall₂ {α β : Type} {R : α → β → Prop} {xs : List α} {ys : List β}
    (h : List.Forall₂ R xs ys) {i : Nat} {x : α} (hx : xs[i]? = some x) :
    ∃ y, ys[i]? = some y ∧ R x y := by
  induction h generalizing i with
  | nil => simp at hx
  | cons hxy _ ih =>
    cases i with
    | zero =>
      cases hx
      exact ⟨_, rfl, hxy⟩
    | succ i => exact ih hx

theorem exists_of_forall₂ {α β : Type} {R : α → β → Prop} {xs : List α} {ys : List β}
    (h : List.Forall₂ R xs ys) {x : α} (hx : x ∈ xs) : ∃ y ∈ ys, R x y := by
  obtain ⟨i, hi⟩ := List.mem_iff_getElem?.1 hx
  obtain ⟨y, hy, hr⟩ := getElem?_of_forall₂ h hi
  exact ⟨y, List.mem_of_getElem? hy, hr⟩

/-- The requests on the walk through an outline are read from its references. -/
theorem Walk.references {f : FrameId} {ns : List Node} {vs : List Visit} (h : Walk s f ns vs)
    {ds : List NodeDescription} (hm : Outline.Makes ds ns) (ho : Outline ds) :
    List.Forall₂ (fun r written => r.link.Reads (s.documentOf f) written)
      (vs.filterMap Visit.request?) (Outline.references ds) := by
  induction h generalizing ds with
  | nil =>
    cases hm
    exact .nil
  | text | term | expansion => cases hm
  | labeled f h _ hi _ _ _ ihb ihr =>
    cases hm with
    | heading title _ _ hmb hmr =>
    cases ho with
    | heading _ hob hor =>
    have hown : s.documentOf _ = s.documentOf f := hi.documentOf
    rw [List.filterMap_cons_none rfl, List.filterMap_append,
      Outline.references_heading title hob hor]
    exact List.rel_append (hown ▸ ihb hmb hob) (ihr hmr hor)
  | embedding f key location written _ hl _ ih =>
    cases hm with
    | embedding _ _ _ hmr =>
    cases ho with
    | embedding _ _ hor =>
    rw [List.filterMap_cons_some (f := Visit.request?) rfl, Outline.references_embedding _ hor]
    exact .cons hl (ih hmr hor)

/-- What a reference to a document is read as tells where it leads to. -/
theorem Link.Reads.target? {link : Link} {document written path : String}
    (h : link.Reads document written) (hw : Link.read? false written = .ok (.place path "")) :
    ∃ path, link = .place path "" ∧ Outline.target? document written = some path := by
  obtain ⟨l, hl, habs⟩ := h
  cases hw.symm.trans hl
  have hplace : ∃ path, link = .place path "" := by
    unfold Link.abs? at habs
    dsimp only at habs
    split at habs
    · exact ⟨_, (Except.ok.inj habs).symm⟩
    · split at habs
      · exact ⟨_, (Except.ok.inj habs).symm⟩
      · split at habs
        · cases habs
        · exact ⟨_, (Except.ok.inj habs).symm⟩
  obtain ⟨path, rfl⟩ := hplace
  refine ⟨path, rfl, ?_⟩
  unfold Outline.target?
  rw [hw]
  dsimp only
  rw [habs]

namespace Prepared

variable {D : Table Description} {c : Collection} {W : List (String × List Visit)}
  {info : DocumentInfo} {vs : List Visit}

/-- A document was made from an outline. -/
theorem makes (hp : Prepared c W s) (hc : c.DescribedBy D) (hD : Outline.Describes D)
    (hd : s.info? d = some info) : ∃ description, D.lookup d = some description ∧
      Outline description.nodes ∧ Outline.Makes description.nodes info.document.nodes ∧
      info.document.settings = [] := by
  obtain ⟨description, hlookup, hmade⟩ := hc.made d _ (hp.info d info hd).1
  obtain ⟨hdecl, ho⟩ := hD d description hlookup
  obtain ⟨hsettings, hm⟩ := Document.makes_of_ofDescription? hmade hdecl ho
  exact ⟨description, hlookup, ho, hm, hsettings⟩

/-- The requests of a document are read from its references. -/
theorem reads (hp : Prepared c W s) (hc : c.DescribedBy D) (hD : Outline.Describes D)
    (hd : s.info? d = some info) : ∃ description, D.lookup d = some description ∧
      Outline description.nodes ∧ List.Forall₂ (fun link written => Link.Reads link d written)
        (info.requests.map EmbeddingRequest.link) (Outline.references description.nodes) := by
  obtain ⟨vs, hw⟩ := hp.exists_walk hd
  obtain ⟨info', hd', hwalk, hrequests⟩ := hp.walk d vs hw
  cases hd.symm.trans hd'
  obtain ⟨description, hlookup, ho, hm, -⟩ := hp.makes hc hD hd
  obtain ⟨frame, hframe, -, hdoc, -⟩ := (hp.info d info hd).2.1.frame
  have hreads := hwalk.references hm ho
  rw [documentOf_eq hframe, hdoc] at hreads
  have hlinks := congrArg (List.map Prod.fst) hrequests
  rw [List.map_map, List.map_map] at hlinks
  refine ⟨description, hlookup, ho, ?_⟩
  rw [show info.requests.map EmbeddingRequest.link =
    (vs.filterMap Visit.request?).map EmbeddingRequest.link from hlinks]
  exact List.forall₂_map_left_iff.2 hreads

/-- A document is embedded exactly where a reference leads to it. -/
theorem embeds_iff (hp : Prepared c W s) (hc : c.DescribedBy D) (hD : Outline.Describes D)
    (hd : s.info? d = some info) : Outline.Embeds D d e ↔
      ∃ info location, s.info? e = some info ∧ info.embeddedBy = some (d, location) := by
  obtain ⟨description, hlookup, ho, hreads⟩ := hp.reads hc hD hd
  constructor
  · rintro ⟨description', hlookup', written, hwritten, htarget⟩
    cases hlookup.symm.trans hlookup'
    obtain ⟨link, hlink, hread⟩ := exists_of_forall₂ hreads.flip hwritten
    obtain ⟨r, hr, rfl⟩ := List.mem_map.1 hlink
    obtain ⟨path, hplace⟩ := Outline.read?_of_mem_references ho hwritten
    obtain ⟨path', heq, htarget'⟩ := Link.Reads.target? hread hplace
    cases htarget.symm.trans htarget'
    obtain ⟨e', info', -, he', hinfo', hby⟩ := hp.arranged.target d info r hd hr
    rw [heq] at he'
    subst he'
    exact ⟨info', r.location, hinfo', hby⟩
  · rintro ⟨info', location, he, hby⟩
    obtain ⟨outer, r, houter, hr, htarget, -⟩ := hp.arranged.embedded e info' d location he hby
    cases hd.symm.trans houter
    obtain ⟨written, hwritten, hread⟩ :=
      exists_of_forall₂ hreads (List.mem_map_of_mem hr)
    obtain ⟨path, hplace⟩ := Outline.read?_of_mem_references ho hwritten
    obtain ⟨path', heq, htarget'⟩ := Link.Reads.target? hread hplace
    obtain ⟨e', -, he', htargetOf, -⟩ := hp.arranged.target d info r hd hr
    cases htarget.symm.trans he'
    rw [heq] at htargetOf
    cases htargetOf
    exact ⟨description, hlookup, written, hwritten, htarget'⟩

end Prepared

/-! ## What documents wait for -/

namespace Resolution

/-- Claims can go on. -/
structure Able (s₀ t : Resolution) : Prop where
  progress : s₀.Progress t
  sound : t.numbering.layout.Sound
  apart : t.Apart

/-- Nothing was claimed or handed over but for the documents in `U`, and no range was opened but for
their roots. -/
structure Spares (s₀ : Resolution) (U : String → Prop) (t t' : Resolution) : Prop where
  entryAt : ∀ entry d typ id, s₀.Registered entry d typ → ¬U d → t.EntryAt entry id →
    t'.EntryAt entry id
  handedAt : ∀ d id, ¬U d → t.HandedAt d id → t'.HandedAt d id
  handle : ∀ d, ¬U d → t'.handle? d = t.handle? d
  roots : ∀ r, (∀ d, U d → ¬Rooted s₀ r d) → t'.roots.lookup r = t.roots.lookup r

/-- It is the turn of a document that nothing was claimed in yet. Its sections will stand behind
`count` others below `outer`. -/
inductive Awaits (s₀ t : Resolution) : String → List Nat → Nat → Prop
  | root {d : String} {info : DocumentInfo} (h : s₀.info? d = some info)
    (he : info.embeddedBy = none) (hr : t.roots.lookup d = some []) (hh : t.handle? d = none) :
    Awaits s₀ t d [] 0
  | handed {d : String} {info : DocumentInfo} {outer : List Nat} {count : Nat}
    (h : s₀.info? d = some info) (he : info.embeddedBy.isSome)
    (hh : t.HandedAt d ⟨s₀.options.sectionType, outer ++ [count + 1]⟩) : Awaits s₀ t d outer count

variable {s₀ t t' t'' : Resolution} {U V : String → Prop} {outer : List Nat} {count : Nat}
  {typ : String}

namespace Spares

theorem refl (s₀ : Resolution) (U : String → Prop) (t : Resolution) : s₀.Spares U t t :=
  ⟨fun _ _ _ _ _ _ h => h, fun _ _ _ h => h, fun _ _ => rfl, fun _ _ => rfl⟩

theorem trans (h : s₀.Spares U t t') (h' : s₀.Spares U t' t'') : s₀.Spares U t t'' where
  entryAt entry d typ id hr hd he := h'.entryAt entry d typ id hr hd (h.entryAt entry d typ id hr hd he)
  handedAt d id hd hh := h'.handedAt d id hd (h.handedAt d id hd hh)
  handle d hd := (h'.handle d hd).trans (h.handle d hd)
  roots r hr := (h'.roots r hr).trans (h.roots r hr)

theorem mono (h : s₀.Spares U t t') (hV : ∀ d, U d → V d) : s₀.Spares V t t' where
  entryAt entry d typ id hr hd := h.entryAt entry d typ id hr fun hu => hd (hV d hu)
  handedAt d id hd := h.handedAt d id fun hu => hd (hV d hu)
  handle d hd := h.handle d fun hu => hd (hV d hu)
  roots r hr := h.roots r fun d hu => hr d (hV d hu)

end Spares

theorem HandedAt.unique {id id' : LabelId} (h : t.HandedAt d id) (h' : t.HandedAt d id') :
    id = id' := by
  obtain ⟨i, hi, r, q, hr, -, -, hc, s, hs, rfl⟩ := h
  obtain ⟨i', hi', r', q', hr', -, -, hc', s', hs', rfl⟩ := h'
  cases hi.symm.trans hi'
  cases hr.symm.trans hr'
  cases hc.symm.trans hc'
  cases hs.symm.trans hs'
  rfl

/-- There is one place that a document waits for. -/
theorem Awaits.unique {outer' : List Nat} {count' : Nat} (h : s₀.Awaits t d outer count)
    (h' : s₀.Awaits t d outer' count') : outer = outer' ∧ count = count' := by
  cases h with
  | root h he hr hh =>
    cases h' with
    | root => exact ⟨rfl, rfl⟩
    | handed h₂ he₂ =>
      cases h.symm.trans h₂
      simp [he] at he₂
  | handed h he hh =>
    cases h' with
    | root h₂ he₂ =>
      cases h.symm.trans h₂
      simp [he₂] at he
    | handed _ _ hh' =>
      have hid := congrArg LabelId.path (hh.unique hh')
      have := List.append_singleton_inj.1 hid
      exact ⟨this.1, by omega⟩

/-- A document waits on while others have their turn. -/
theorem Awaits.spared (h : s₀.Awaits t d outer count) (hs : s₀.Spares U t t')
    (hd : ∀ e, s₀.Under d e → ¬U e) : s₀.Awaits t' d outer count := by
  cases h with
  | root h he hr hh =>
    refine .root h he ((hs.roots d fun e he' hrooted => hd e hrooted.under he').trans hr) ?_
    rw [hs.handle d (hd d .refl), hh]
  | handed h he hh => exact .handed h he (hs.handedAt d _ (hd d .refl) hh)

/-! ## Opening ranges -/

theorem beside_withRange (t : Resolution) (root typ : String) (settings : Option TypeSettings)
    (location : Location) (separator : String) (rule : LabelRule) :
    t.numbering.layout.Beside
      (t.withRange root typ settings location separator rule).numbering.layout
      t.numbering.layout.freshRange where
  slot q id hq := by
    change (Numbering.newRange _ _ _ _).2.layout.HasId q id
    rw [Numbering.layout_newRange]
    exact hq
  range i r hi hr := by
    rw [range?_withRange, if_neg hi, hr]

theorem Able.withRange (h : s₀.Able t) (root typ : String) (settings : Option TypeSettings)
    (location : Location) (separator : String) (rule : LabelRule) :
    s₀.Able (t.withRange root typ settings location separator rule) where
  progress := h.progress.trans (withRange_progress ..)
  sound := withRange_sound h.sound ..
  apart := by
    refine ⟨fun d i hi => ?_, h.apart.eq⟩
    obtain ⟨r, hr⟩ := h.apart.isSome d i hi
    exact ⟨r, (beside_withRange t _ _ _ _ _ _).range i r (Layout.ne_freshRange hr) hr⟩

theorem Able.setActive (h : s₀.Able t) (active : List (String × RangeId)) :
    s₀.Able { t with numbering := t.numbering.setActive active } where
  progress := h.progress.trans (.of_numbering rfl (Nat.le_refl _))
  sound := h.sound.setActive active
  apart := ⟨h.apart.isSome, h.apart.eq⟩

/-- A slot that was handed over waits on while ranges are opened. -/
theorem HandedAt.withRange {id : LabelId} (h : t.HandedAt d id) (root typ : String)
    (settings : Option TypeSettings) (location : Location) (separator : String)
    (rule : LabelRule) : (t.withRange root typ settings location separator rule).HandedAt d id := by
  obtain ⟨i, hi, ho⟩ := h
  refine ⟨i, hi, (beside_withRange t _ _ _ _ _ _).offers ?_ ho⟩
  obtain ⟨r, q, hr, -⟩ := ho
  exact Layout.ne_freshRange hr

/-- A range is opened for the root of a document. -/
theorem Spares.withRange (t : Resolution) (hr : Rooted s₀ root d) (hd : U d) (typ : String)
    (settings : Option TypeSettings) (location : Location) (separator : String)
    (rule : LabelRule) :
    s₀.Spares U t (t.withRange root typ settings location separator rule) where
  entryAt entry d typ' id _ _ := by
    rintro ⟨en, q, hen, hq, hid⟩
    exact ⟨en, q, hen, hq, (beside_withRange t _ _ _ _ _ _).slot q id hid⟩
  handedAt d id _ hh := hh.withRange ..
  handle _ _ := rfl
  roots r hu := by
    rw [lookup_roots_withRange, if_neg]
    rintro rfl
    exact hu d hd hr

theorem Spares.setActive (t : Resolution) (active : List (String × RangeId)) :
    s₀.Spares U t { t with numbering := t.numbering.setActive active } :=
  ⟨fun _ _ _ _ _ _ h => h, fun _ _ _ h => h, fun _ _ => rfl, fun _ _ => rfl⟩

/-- The range of a root was just opened, if it is there at all. -/
def Begun (t : Resolution) (root typ : String) : Prop :=
  ∀ e, t.rangeFor? root typ = some e → t.numbering.layout.Growing e.range typ [] 0

theorem Begun.withRange (h : t.Begun root typ) (root' typ' : String)
    (settings : Option TypeSettings) (location : Location) (separator : String)
    (rule : LabelRule) :
    (t.withRange root' typ' settings location separator rule).Begun root typ := by
  intro e he
  have hold : ∀ e, t.rangeFor? root typ = some e →
      (t.withRange root' typ' settings location separator rule).numbering.layout.Growing e.range typ
        [] 0 := by
    intro e he
    obtain ⟨r, hr⟩ := (h e he).isSome
    exact (beside_withRange t _ _ _ _ _ _).growing (Layout.ne_freshRange hr) (h e he)
  unfold rangeFor? at he
  rw [lookup_roots_withRange] at he
  split at he
  · obtain ⟨entries, hentries, hfind⟩ := Option.bind_eq_some_iff.1 he
    obtain ⟨old, hlookup, rfl⟩ := Option.map_eq_some_iff.1 hentries
    rw [List.find?_append] at hfind
    cases hf : old.find? (·.typ = typ) with
    | some e' =>
      rw [hf, Option.some_or] at hfind
      exact hold e (by rw [rangeFor?, hlookup, Option.bind_some, hf, hfind])
    | none =>
      rw [hf] at hfind
      simp only [Option.none_or, List.find?_singleton] at hfind
      split at hfind
      next htyp =>
        cases hfind
        obtain rfl : typ' = typ := by simpa using htyp
        have hrange := range?_withRange t root' typ' settings location separator rule
          t.numbering.layout.freshRange
        rw [if_pos rfl] at hrange
        exact ⟨_, hrange, rfl, rfl, rfl⟩
      · cases hfind
  · exact hold e he

/-! ## The turn of a document -/

/-- What leaves everything but some entries and documents alone spares the other documents. -/
theorem Elsewhere.spares {es : List EntryId} {ds : List String} (h : Elsewhere t t' es ds)
    (hes : ∀ e ∈ es, ∃ d typ, U d ∧ s₀.Registered e d typ) (hds : ∀ d ∈ ds, U d) :
    s₀.Spares U t t' where
  entryAt entry d typ id hr hd he := by
    refine h.entryAt entry id (fun hmem => hd ?_) he
    obtain ⟨d', typ', hu, en, hen, hen', -⟩ := hes entry hmem
    obtain ⟨en', hen₂, hd', -⟩ := hr
    cases hen.symm.trans hen₂
    exact hd' ▸ hen' ▸ hu
  handedAt d id hd hh := h.handedAt d id (fun hmem => hd (hds d hmem)) hh
  handle d hd := h.handle d fun hmem => hd (hds d hmem)
  roots r _ := by rw [h.roots]

/-- The turn of a document has come, and its sections will stand behind `count` others below
`outer`: in a range that was just opened, or at a slot that was handed over. -/
inductive Served (s₀ t : Resolution) (d : String) : List Nat → Nat → Prop
  | root {info : DocumentInfo} (h : s₀.info? d = some info) (he : info.embeddedBy = none)
    (hg : ∀ i, t.documentRange? d s₀.options.sectionType = some i →
      t.numbering.layout.Growing i s₀.options.sectionType [] 0) : Served s₀ t d [] 0
  | handed {outer : List Nat} {count : Nat} {info : DocumentInfo} (h : s₀.info? d = some info)
    (he : info.embeddedBy.isSome)
    (hh : t.HandedAt d ⟨s₀.options.sectionType, outer ++ [count + 1]⟩) : Served s₀ t d outer count

/-- Where nothing was handed over, the range in use at the top of a root is its own. -/
theorem documentRange?_root {info : DocumentInfo} (hd : t.info? d = some info)
    (hroot : info.root = some d) (hh : t.handle? d = none) {i : RangeId}
    (hi : t.documentRange? d t.options.sectionType = some i) :
    ∃ e, t.rangeFor? d t.options.sectionType = some e ∧ e.range = i := by
  unfold handle? at hh
  rw [hd, Option.bind_some] at hh
  obtain ⟨info', hd', hl | ⟨-, root, e, hroot', he, hi⟩⟩ := documentRange?_eq_some hi <;>
    cases hd.symm.trans hd'
  · cases hh.symm.trans hl
  · cases hroot.symm.trans hroot'
    exact ⟨e, he, hi⟩

theorem documentRange?_of_handle? {i : RangeId} (hh : t.handle? d = some i) :
    t.documentRange? d t.options.sectionType = some i := by
  unfold handle? at hh
  obtain ⟨info, hd, hi⟩ := Option.bind_eq_some_iff.1 hh
  unfold documentRange?
  rw [hd]
  simp only [Option.bind_eq_bind, Option.bind_some, hi]

end Resolution

namespace Run

variable {s₀ t : Resolution} {c : Collection} {W : List (String × List Visit)} {outer : List Nat}
  {count : Nat} {info : DocumentInfo}

/-- After its ranges were opened, a document that waited is served. -/
theorem openRanges_awaited (hp : Prepared c W s₀) (ht : s₀.Able t)
    (ha : s₀.Awaits t d outer count) (hd : t.info? d = some info) :
    After True (openRanges d info) t fun _ t' =>
      s₀.Able t' ∧ s₀.Spares (d = ·) t t' ∧ s₀.Served t' d outer count := by
  obtain ⟨info₀, hinfo₀, heq⟩ := ht.progress.info_of hd
  obtain ⟨root, hroot, hrooted⟩ := hp.rooted hinfo₀
  have hgetD : info.root.getD d = root := by rw [heq, hroot, Option.getD_some]
  cases ha with
  | root h he hr hh =>
    obtain rfl : root = d := hrooted.unique (.top h he)
    refine openRanges_spec (J := fun t' => s₀.Able t' ∧ s₀.Spares (root = ·) t t' ∧
      t'.handle? root = none ∧ t'.Begun root s₀.options.sectionType)
      (fun t' typ location separator rule hJ _ _ _ => ?_) (fun t' hJ => ?_)
      ⟨ht, .refl .., hh, fun e he => ?_⟩
    · obtain ⟨hable, hspares, hhandle, hbegun⟩ := hJ
      rw [hgetD]
      exact ⟨hable.withRange .., hspares.trans (.withRange t' hrooted rfl ..), hhandle,
        hbegun.withRange _ _ _ _ _ _⟩
    · obtain ⟨hable, hspares, hhandle, hbegun⟩ := hJ
      refine ⟨hable.setActive _, hspares.trans (.setActive t' _), .root h he fun i hi => ?_⟩
      obtain ⟨handed, hinfo'⟩ := hable.progress.info root info₀ hinfo₀
      rw [← hable.progress.options] at hi hbegun ⊢
      obtain ⟨e, hentry, rfl⟩ := documentRange?_root (t := t') hinfo' hroot hhandle hi
      exact hbegun e hentry
    · simp [rangeFor?, hr] at he
  | handed h he hh =>
    refine openRanges_spec (J := fun t' => s₀.Able t' ∧ s₀.Spares (d = ·) t t' ∧
      t'.HandedAt d ⟨s₀.options.sectionType, outer ++ [count + 1]⟩)
      (fun t' typ location separator rule hJ _ _ _ => ?_) (fun t' hJ => ?_) ⟨ht, .refl .., hh⟩
    · obtain ⟨hable, hspares, hhanded⟩ := hJ
      rw [hgetD]
      exact ⟨hable.withRange .., hspares.trans (.withRange t' hrooted rfl ..),
        hhanded.withRange ..⟩
    · obtain ⟨hable, hspares, hhanded⟩ := hJ
      exact ⟨hable.setActive _, hspares.trans (.setActive t' _), .handed h he hhanded⟩

/-- A document that waited claims the places of its outline where it stands, and hands slots over
to the documents that it embeds. -/
theorem claimVisits_awaited (hp : Prepared c W s₀) (ht : s₀.Able t)
    (ha : s₀.Awaits t d outer count) {vs : List Visit} (hw : (d, vs) ∈ W)
    (hd : s₀.info? d = some info) {ds : List NodeDescription}
    (hm : Outline.Makes ds info.document.nodes)
    (hone : info.embeddedBy.isSome → ∃ title body, ds = [.heading none title body]) :
    After True (claimVisits W d) t fun _ t' => s₀.Able t' ∧
      s₀.Spares (fun e => d = e ∨ e ∈ vs.filterMap s₀.goal?) t t' ∧
      List.Forall₂ (s₀.Placed d t') vs (Outline.places outer count ds) := by
  obtain ⟨handed, hinfo⟩ := ht.progress.info d info hd
  obtain ⟨info', hinfo', hwalk, -⟩ := hp.walk d vs hw
  cases hd.symm.trans hinfo'
  obtain ⟨frame, hframe, hparent, hdoc, -, hkind⟩ := (hp.info d info hd).2.1.frame
  have hown : s₀.documentOf info.frame = d := (documentOf_eq hframe).trans hdoc
  have hdepth : s₀.Depth 0 info.frame := .top frame hframe hparent
  have huntangled := hp.untangled hw hd
  have hes : ∀ e ∈ vs.filterMap Visit.entry?, ∃ d' typ,
      (d = d' ∨ d' ∈ vs.filterMap s₀.goal?) ∧ s₀.Registered e d' typ := by
    intro e he
    obtain ⟨typ, hreg⟩ := hp.registered hw he
    exact ⟨d, typ, .inl rfl, hreg⟩
  unfold claimVisits
  rw [After.bind_iff, After.get_iff, hinfo]
  dsimp only
  rw [After.bind_iff, hp.lookup_walk hw, Option.getD_some]
  refine (openRanges_awaited hp ht ha hinfo).mono fun _ t₁ ⟨hable, hspares, hserved⟩ => ?_
  have hspares := hspares.mono (V := fun e => d = e ∨ e ∈ vs.filterMap s₀.goal?) fun _ => .inl
  have hrange : t₁.rangeIn? info.frame s₀.options.sectionType =
      t₁.documentRange? d s₀.options.sectionType := by
    obtain ⟨frame₁, hframe₁, halike⟩ := hable.progress.frame info.frame frame hframe
    obtain ⟨ids, hk⟩ := (hkind.alike halike.2.2.2).exists_ids
    rw [rangeIn?_document hframe₁ hk, halike.2.1, hdoc]
  cases hserved with
  | root h he hg =>
    have hcounts : s₀.CountsSections info.frame := by
      obtain ⟨ids, hk⟩ := hkind.exists_ids
      exact ⟨frame, hframe, by rw [hk]; rfl⟩
    refine (hwalk.claims hm [] 0 hdepth hcounts huntangled hable.progress hable.sound
      fun i hi => hg i (hrange ▸ hi)).mono fun _ t₂ h₂ => ⟨⟨h₂.progress, h₂.sound,
        h₂.elsewhere.apart hable.apart⟩, hspares.trans (h₂.elsewhere.spares hes ?_),
        hown ▸ h₂.placed⟩
    exact fun e he => .inr he
  | handed h he hh =>
    cases hd.symm.trans h
    obtain ⟨title, body, rfl⟩ := hone he
    obtain ⟨i, hi, ho⟩ := hh
    have hoffers : ∀ j, t₁.rangeIn? info.frame s₀.options.sectionType = some j →
        t₁.handle? (s₀.documentOf info.frame) = some j ∧
          t₁.numbering.layout.Offers j ⟨s₀.options.sectionType, outer ++ [count + 1]⟩ := by
      intro j hj
      have hhandle := documentRange?_of_handle? hi
      rw [hable.progress.options, ← hrange, hj] at hhandle
      cases hhandle
      exact ⟨hown ▸ hi, ho⟩
    refine (hwalk.claims_offered hm outer count hdepth huntangled hable.progress hable.sound
      hable.apart hoffers).mono fun _ t₂ ⟨hprogress, hsound, helse, hplaced⟩ =>
        ⟨⟨hprogress, hsound, helse.apart hable.apart⟩, hspares.trans (helse.spares hes ?_),
          hown ▸ hplaced⟩
    intro e he
    rw [hown] at he
    exact (List.mem_cons.1 he).imp_left Eq.symm

end Run

end Folio
