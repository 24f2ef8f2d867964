import Folio.Proofs.Numbering.Masters
import Folio.Proofs.Resolution.Regular

/-!
# The trees of a root

A root has one tree of slots for each label type. Whatever range is in use for the type in a
document below the root, or inside of a node there, serves this tree (`Resolution.CountsFor`):
ranges inside of nodes are opened below slots of the tree, and ranges that are handed over are made
for such slots. So the slot that leads another one lies in the tree of the master in the same root
(`Resolution.Leads`), and `Prepared.planted` keeps this up while slots are claimed.
-/

namespace Folio

open Resolution

namespace Resolution

/-- A slot hangs on the range of a label type in a root. -/
def HangsAt (s : Resolution) (root typ : String) (q : SlotId) : Prop :=
  ∃ e, s.rangeFor? root typ = some e ∧ s.numbering.layout.Covers e.range q

/-- The slots that may lead those on a range at the top. They hang on the range of the master in the
same root, and the separator stands behind their names. -/
def Leads (s : Resolution) (master σ : String) (top : RangeId) (x : SlotId) : Prop :=
  (∃ u, s.numbering.layout.range? top = some u ∧ u.separator = σ) ∧
    ∃ root typ e, s.rangeFor? root typ = some e ∧ e.range = top ∧ s.HangsAt root master x

/-- A range serves the tree of a label type in a root. -/
def CountsFor (s : Resolution) (master σ root typ : String) (i : RangeId) : Prop :=
  ∃ e, s.rangeFor? root typ = some e ∧
    s.numbering.layout.Serves (s.Leads master σ) e.range i

/-- A slot hangs on the range of a label type in a root, and has a lead from there, if any. -/
def Stands (s : Resolution) (master σ root typ : String) (q : SlotId) : Prop :=
  ∃ e t, s.rangeFor? root typ = some e ∧ s.numbering.layout.Covers e.range q ∧
    s.numbering.layout.slot? q = some t ∧ ∀ x, t.lead = some x → s.Leads master σ e.range x

/-- Trees only grow, and ranges go on serving them. -/
structure Enlarges (master σ : String) (s s' : Resolution) : Prop where
  retains : s.numbering.layout.Retains s'.numbering.layout
  entry : ∀ root typ e, s.rangeFor? root typ = some e → s'.rangeFor? root typ = some e
  serves : ∀ top i, s.numbering.layout.Serves (s.Leads master σ) top i →
    s'.numbering.layout.Serves (s.Leads master σ) top i

namespace Enlarges

variable {master σ : String} {s s' : Resolution} {root typ : String} {q x : SlotId}
  {top i : RangeId}

theorem hangsAt (h : Enlarges master σ s s') (hq : s.HangsAt root typ q) :
    s'.HangsAt root typ q := by
  obtain ⟨e, he, hc⟩ := hq
  exact ⟨e, h.entry root typ e he, h.retains.covers hc⟩

theorem leads (h : Enlarges master σ s s') (hx : s.Leads master σ top x) :
    s'.Leads master σ top x := by
  obtain ⟨⟨u, hu, hσ⟩, root, typ, e, he, htop, hx⟩ := hx
  obtain ⟨u', hu', -, hsep, -⟩ := h.retains.range top u hu
  exact ⟨⟨u', hu', hsep.trans hσ⟩, root, typ, e, h.entry root typ e he, htop, h.hangsAt hx⟩

/-- A range that serves a tree whose leads may be those from before. -/
theorem of_serves (h : Enlarges master σ s s')
    (hi : s'.numbering.layout.Serves (s.Leads master σ) top i) :
    s'.numbering.layout.Serves (s'.Leads master σ) top i :=
  hi.mono (.refl _) (fun _ hx => h.leads hx) fun r hr => ⟨r, hr, .refl r⟩

theorem countsFor (h : Enlarges master σ s s') (hi : s.CountsFor master σ root typ i) :
    s'.CountsFor master σ root typ i := by
  obtain ⟨e, he, hserves⟩ := hi
  exact ⟨e, h.entry root typ e he, h.of_serves (h.serves _ _ hserves)⟩

theorem stands (h : Enlarges master σ s s') (hq : s.Stands master σ root typ q) :
    s'.Stands master σ root typ q := by
  obtain ⟨e, t, he, hc, ht, hlead⟩ := hq
  obtain ⟨t', ht', hsame⟩ := h.retains.slot q t ht
  exact ⟨e, t', h.entry root typ e he, h.retains.covers hc, ht',
    fun x hx => h.leads (hlead x (hsame ▸ hx))⟩

end Enlarges

/-- Every range serves the tree of a root, and the ranges in use below a root serve its trees. The
ranges in use for the document `d` are noted. -/
structure Planted (s₀ : Resolution) (master σ d : String) (s : Resolution) : Prop
    extends s₀.Orderly s where
  regular : s₀.Regular master master s
  mastered : s.numbering.Mastered master σ
  served : s.numbering.layout.Served (s.Leads master σ)
  own : ∀ root typ e, s.rangeFor? root typ = some e →
    s.numbering.layout.Serves (s.Leads master σ) e.range e.range
  apart : ∀ root typ e root' typ' e', s.rangeFor? root typ = some e →
    s.rangeFor? root' typ' = some e' → e.range = e'.range → root = root' ∧ typ = typ'
  inside : ∀ g frame typ ids range root, s.frame? g = some frame →
    frame.kind = .subRange typ ids (some range) → Rooted s₀ root frame.document →
    s.CountsFor master σ root typ range
  handles : ∀ d info typ range root, s.info? d = some info → (typ, range) ∈ info.handedRanges →
    Rooted s₀ root d → s.CountsFor master σ root typ range
  active : ∀ typ range root, s.numbering.layout.active? typ = some range → Rooted s₀ root d →
    s.CountsFor master σ root typ range
  stands : ∀ e entry q root, s.registry.entryAt? e = some entry → entry.slot = some q →
    Rooted s₀ root entry.document → s.Stands master σ root entry.id.typ q

namespace Planted

variable {c : Collection} {W : List (String × List Visit)} {s₀ s s' : Resolution}
  {master σ d d' root typ : String} {i range : RangeId}

/-- The range in use at the top of a document. -/
theorem countsFor_of_documentRange? (h : s₀.Planted master σ d s) (hp : Prepared c W s₀)
    (hr : s.documentRange? d' typ = some range) (hroot : Rooted s₀ root d') :
    s.CountsFor master σ root typ range := by
  obtain ⟨info, hinfo, hl | ⟨-, root', e, hroot', he, rfl⟩⟩ := documentRange?_eq_some hr
  · exact h.handles d' info typ range root hinfo (Table.mem_of_lookup hl) hroot
  · obtain ⟨info₀, hinfo₀, heq⟩ := h.progress.info_of hinfo
    obtain ⟨root₀, hroot₀, hrooted, -⟩ := hp.root d' info₀ hinfo₀
    rw [heq] at hroot'
    cases hroot₀.symm.trans hroot'
    obtain rfl := hrooted.unique hroot
    exact ⟨e, he, h.own _ typ e he⟩

/-- The range in use where a node stands. -/
theorem countsFor_of_rangeIn? (h : s₀.Planted master σ d s) (hp : Prepared c W s₀) {f : FrameId}
    (hr : s.rangeIn? f typ = some range) (hb : s.Belongs d' f) (hroot : Rooted s₀ root d') :
    s.CountsFor master σ root typ range := by
  obtain ⟨owner, frame, hc, hf, ⟨ids, hk⟩ | ⟨-, hr⟩⟩ := rangeIn?_eq_some hr <;>
    obtain rfl : frame.document = d' := hb.countingFrame? hc
  · exact h.inside owner frame typ ids range root hf hk hroot
  · exact h.countsFor_of_documentRange? hp hr hroot

/-- The lead of the next slot is one that the tree may have. -/
theorem leads_of_leadFor (h : s₀.Planted master σ d s) {e : RangeEntry}
    (he : s.rangeFor? root typ = some e)
    (hi : s.numbering.layout.Serves (s.Leads master σ) e.range i) (hroot : Rooted s₀ root d)
    {r : Range} {x : SlotId} (hr : s.numbering.layout.range? i = some r)
    (hg : r.stage = .growing) (hx : s.numbering.leadFor i r = some x) :
    s.Leads master σ e.range x := by
  unfold Numbering.leadFor at hx
  split at hx
  next lead hlookup =>
    -- Only ranges at the top ask for the master, and one that grows there is that of the entry.
    obtain ⟨u, hu, hup, -⟩ := h.regular.led.top i lead hlookup
    cases hr.symm.trans hu
    obtain ⟨rfl, u, hu, hσ⟩ := h.mastered.lookup i lead hlookup
    cases hr.symm.trans hu
    obtain rfl := hi.head r hr hg hup
    obtain ⟨j, hj, hactual⟩ := Layout.exists_of_ofMaster hx
    obtain ⟨em, hem, hserves⟩ := h.active master j root hj hroot
    exact ⟨⟨r, hr, hσ⟩, root, typ, e, he, rfl, em, hem,
      hserves.covers_actual h.served h.sound hactual⟩
  · exact hi.lead r x hr hx

/-- While trees grow, what serves them does so, and what is new as well. -/
theorem grow (h : s₀.Planted master σ d s) (he : Enlarges master σ s s') (ho : s₀.Orderly s')
    (hreg : s₀.Regular master master s') (hm : s'.numbering.Mastered master σ)
    (hroots : s'.roots = s.roots)
    (hactive : s'.numbering.layout.active = s.numbering.layout.active)
    (hserved : ∀ i r, s'.numbering.layout.range? i = some r →
      s.numbering.layout.range? i = none →
      ∃ top, s'.numbering.layout.Serves (s.Leads master σ) top i)
    (hinside : ∀ g frame typ ids range root, s'.frame? g = some frame →
      frame.kind = .subRange typ ids (some range) → s.frame? g = some frame ∨
      (Rooted s₀ root frame.document → s'.CountsFor master σ root typ range))
    (hhandles : ∀ d info typ range root, s'.info? d = some info →
      (typ, range) ∈ info.handedRanges →
      (∃ info, s.info? d = some info ∧ (typ, range) ∈ info.handedRanges) ∨
      (Rooted s₀ root d → s'.CountsFor master σ root typ range))
    (hstands : ∀ e entry q root, s'.registry.entryAt? e = some entry → entry.slot = some q →
      s.registry.entryAt? e = some entry ∨
      (Rooted s₀ root entry.document → s'.Stands master σ root entry.id.typ q)) :
    s₀.Planted master σ d s' where
  toOrderly := ho
  regular := hreg
  mastered := hm
  served i r hr := by
    cases hold : s.numbering.layout.range? i with
    | none =>
      obtain ⟨top, hi⟩ := hserved i r hr hold
      exact ⟨top, he.of_serves hi⟩
    | some u =>
      obtain ⟨top, hi⟩ := h.served i u hold
      exact ⟨top, he.of_serves (he.serves top i hi)⟩
  own root typ e hfor := by
    rw [rangeFor?, hroots] at hfor
    exact he.of_serves (he.serves _ _ (h.own root typ e hfor))
  apart root typ e root' typ' e' hfor hfor' := by
    rw [rangeFor?, hroots] at hfor hfor'
    exact h.apart root typ e root' typ' e' hfor hfor'
  inside g frame typ ids range root hg hk hroot := by
    rcases hinside g frame typ ids range root hg hk with hg | hnew
    · exact he.countsFor (h.inside g frame typ ids range root hg hk hroot)
    · exact hnew hroot
  handles d info typ range root hd hmem hroot := by
    rcases hhandles d info typ range root hd hmem with ⟨info, hd, hmem⟩ | hnew
    · exact he.countsFor (h.handles d info typ range root hd hmem hroot)
    · exact hnew hroot
  active typ range root ha hroot := by
    rw [Layout.active?, hactive] at ha
    exact he.countsFor (h.active typ range root ha hroot)
  stands e entry q root hentry hq hroot := by
    rcases hstands e entry q root hentry hq with hentry | hnew
    · exact he.stands (h.stands e entry q root hentry hq hroot)
    · exact hnew hroot

end Planted

/-! ## Opening ranges -/

section WithRange

variable {s₀ s : Resolution} {master σ root typ : String} {settings : Option TypeSettings}
  {location : Location} {separator : String} {rule : LabelRule}

theorem slot?_withRange (s : Resolution) (q : SlotId) :
    (s.withRange root typ settings location separator rule).numbering.layout.slot? q =
      s.numbering.layout.slot? q := by
  change (Numbering.newRange _ _ _ _).2.layout.slot? q = _
  rw [Numbering.layout_newRange]
  rfl

theorem active?_withRange (s : Resolution) (t : String) :
    (s.withRange root typ settings location separator rule).numbering.layout.active? t =
      s.numbering.layout.active? t := by
  change (Numbering.newRange _ _ _ _).2.layout.active? t = _
  rw [Numbering.layout_newRange]
  rfl

theorem rangeFor?_withRange {root' typ' : String} {e : RangeEntry}
    (he : s.rangeFor? root' typ' = some e) :
    (s.withRange root typ settings location separator rule).rangeFor? root' typ' = some e := by
  obtain ⟨entries, hentries, hfind⟩ := Option.bind_eq_some_iff.1 he
  rw [rangeFor?, lookup_roots_withRange, hentries]
  split
  · rw [Option.map_some, Option.bind_some, List.find?_append, hfind]
    rfl
  · exact hfind

/-- A range is in use as before, or is the new one. -/
theorem rangeFor?_withRange_cases {root' typ' : String} {e : RangeEntry}
    (he : (s.withRange root typ settings location separator rule).rangeFor? root' typ' = some e) :
    s.rangeFor? root' typ' = some e ∨
      root' = root ∧ typ' = typ ∧ e.range = s.numbering.layout.freshRange := by
  rw [rangeFor?, lookup_roots_withRange] at he
  obtain ⟨entries, hentries, hfind⟩ := Option.bind_eq_some_iff.1 he
  split at hentries
  next hroot =>
    obtain ⟨old, hold, rfl⟩ := Option.map_eq_some_iff.1 hentries
    rw [List.find?_append] at hfind
    rcases Option.or_eq_some_iff.1 hfind with hfind | ⟨-, hfind⟩
    · left
      rw [rangeFor?, hold]
      exact hfind
    · rw [List.find?_singleton] at hfind
      split at hfind
      next htyp =>
        cases hfind
        exact .inr ⟨hroot, (of_decide_eq_true htyp).symm, rfl⟩
      · cases hfind
  · left
    rw [rangeFor?, hentries]
    exact hfind

theorem Enlarges.withRange (s : Resolution) (master σ root typ : String)
    (settings : Option TypeSettings) (location : Location) (separator : String)
    (rule : LabelRule) :
    Enlarges master σ s (s.withRange root typ settings location separator rule) := by
  have hretains : s.numbering.layout.Retains
      (s.withRange root typ settings location separator rule).numbering.layout :=
    .of_ranges (slot?_withRange s) fun i r hr => ⟨r, range?_withRange_of_some hr, rfl, rfl, rfl⟩
  exact ⟨hretains, fun _ _ _ he => rangeFor?_withRange he,
    fun _ _ hi => hi.mono hretains (fun _ hx => hx) fun r hr =>
      ⟨r, range?_withRange_of_some hr, .refl r⟩⟩

/-- A new range serves the tree that it is the head of. -/
theorem serves_withRange (s : Resolution) (P : RangeId → SlotId → Prop) :
    (s.withRange root typ settings location separator rule).numbering.layout.Serves P
      s.numbering.layout.freshRange s.numbering.layout.freshRange := by
  have hrange := range?_withRange s root typ settings location separator rule
    s.numbering.layout.freshRange
  rw [if_pos rfl] at hrange
  refine ⟨⟨_, hrange, rfl⟩, ⟨_, hrange⟩, fun r q hr hq => ?_, fun r p hr hp => ?_,
    fun _ _ _ _ => rfl, fun r x hr hx => ?_⟩ <;> cases hrange.symm.trans hr
  · cases hq
  · cases hp
  · cases hx

namespace Planted

theorem withRange {d : String} (h : s₀.Planted master σ d s)
    (ho : s₀.Orderly (s.withRange root typ settings location separator rule))
    (hreg : s₀.Regular master master (s.withRange root typ settings location separator rule))
    (hlead : ∀ lead, settings.bind TypeSettings.master = some lead →
      lead = master ∧ settings.bind TypeSettings.limit = none ∧ separator = σ) :
    s₀.Planted master σ d (s.withRange root typ settings location separator rule) := by
  have henlarges := Enlarges.withRange s master σ root typ settings location separator rule
  have hnew : (s.withRange root typ settings location separator rule).numbering.layout.Serves
      (Leads (s.withRange root typ settings location separator rule) master σ)
      s.numbering.layout.freshRange s.numbering.layout.freshRange := serves_withRange s _
  have hfresh : ∀ root' typ' e, s.rangeFor? root' typ' = some e →
      e.range ≠ s.numbering.layout.freshRange := by
    rintro root' typ' e he heq
    obtain ⟨r, hr⟩ := (h.own root' typ' e he).isSome
    rw [heq] at hr
    simp at hr
  refine
    { toOrderly := ho
      regular := hreg
      mastered := h.mastered.newRange _ _ _ _ _ fun f hf => ?mastered
      served := fun i r hr => ?served
      own := fun root' typ' e he => ?own
      apart := fun root₁ typ₁ e₁ root₂ typ₂ e₂ h₁ h₂ heq => ?apart
      inside := fun g frame t ids range root' hg hk hroot =>
        henlarges.countsFor (h.inside g frame t ids range root' hg hk hroot)
      handles := fun d' info t range root' hd hmem hroot =>
        henlarges.countsFor (h.handles d' info t range root' hd hmem hroot)
      active := fun t range root' ha hroot =>
        henlarges.countsFor (h.active t range root' (active?_withRange s t ▸ ha) hroot)
      stands := fun e entry q root' hentry hq hroot =>
        henlarges.stands (h.stands e entry q root' hentry hq hroot) }
  case mastered =>
    obtain ⟨lead, hl, rfl⟩ := Option.map_eq_some_iff.1 hf
    obtain ⟨rfl, hlimit, hσ⟩ := hlead lead hl
    rw [hlimit]
    exact ⟨rfl, hσ⟩
  case served =>
    rw [range?_withRange] at hr
    split at hr
    next hi => exact ⟨_, hi ▸ hnew⟩
    · obtain ⟨top, hi⟩ := h.served i r hr
      exact ⟨top, henlarges.of_serves (henlarges.serves top i hi)⟩
  case own =>
    rcases rangeFor?_withRange_cases he with he | ⟨-, -, hrange⟩
    · exact henlarges.of_serves (henlarges.serves _ _ (h.own root' typ' e he))
    · rw [hrange]
      exact hnew
  case apart =>
    rcases rangeFor?_withRange_cases h₁ with hold₁ | ⟨hroot₁, htyp₁, hr₁⟩ <;>
      rcases rangeFor?_withRange_cases h₂ with hold₂ | ⟨hroot₂, htyp₂, hr₂⟩
    · exact h.apart root₁ typ₁ e₁ root₂ typ₂ e₂ hold₁ hold₂ heq
    · exact (hfresh _ _ e₁ hold₁ (heq.trans hr₂)).elim
    · exact (hfresh _ _ e₂ hold₂ (heq.symm.trans hr₁)).elim
    · exact ⟨hroot₁.trans hroot₂.symm, htyp₁.trans htyp₂.symm⟩

end Planted

end WithRange

/-! ## Noting the ranges in use -/

theorem Enlarges.setActive (s : Resolution) (master σ : String)
    (active : List (String × RangeId)) :
    Enlarges master σ s { s with numbering := s.numbering.setActive active } := by
  have hretains : s.numbering.layout.Retains (s.numbering.setActive active).layout :=
    .of_ranges (fun _ => rfl) fun _ r hr => ⟨r, hr, rfl, rfl, rfl⟩
  exact ⟨hretains, fun _ _ _ he => he,
    fun _ _ hi => hi.mono hretains (fun _ hx => hx) fun r hr => ⟨r, hr, .refl r⟩⟩

/-- The ranges in use in a document serve the trees of its root. -/
theorem Planted.setActive {c : Collection} {W : List (String × List Visit)} {s₀ s : Resolution}
    {master σ d e root : String} (h : s₀.Planted master σ e s) (hp : Prepared c W s₀)
    (ho : s₀.Orderly { s with numbering := s.numbering.setActive (s.inUse root d) })
    (hreg : s₀.Regular master master
      { s with numbering := s.numbering.setActive (s.inUse root d) }) :
    s₀.Planted master σ d
      { s with numbering := s.numbering.setActive (s.inUse root d) } := by
  have henlarges := Enlarges.setActive s master σ (s.inUse root d)
  exact
    { toOrderly := ho
      regular := hreg
      mastered := h.mastered.setActive _
      served := fun i r hr => by
        obtain ⟨top, hi⟩ := h.served i r hr
        exact ⟨top, henlarges.of_serves (henlarges.serves top i hi)⟩
      own := fun root' typ e he => henlarges.of_serves (henlarges.serves _ _ (h.own root' typ e he))
      apart := h.apart
      inside := fun g frame typ ids range root' hg hk hroot =>
        henlarges.countsFor (h.inside g frame typ ids range root' hg hk hroot)
      handles := fun d' info typ range root' hd hmem hroot =>
        henlarges.countsFor (h.handles d' info typ range root' hd hmem hroot)
      active := fun typ range root' ha hroot => by
        have hmem : (typ, range) ∈ s.inUse root d := Table.mem_of_lookup ha
        obtain ⟨entry, -, hentry⟩ := List.mem_filterMap.1 hmem
        obtain ⟨range', hrange, heq⟩ := Option.map_eq_some_iff.1 hentry
        cases heq
        exact henlarges.countsFor (h.countsFor_of_documentRange? hp hrange hroot)
      stands := fun e entry q root' hentry hq hroot =>
        henlarges.stands (h.stands e entry q root' hentry hq hroot) }

/-! ## Visits -/

namespace Planted

variable {c : Collection} {W : List (String × List Visit)} {s₀ s s' : Resolution}
  {master σ d root : String} {f : FrameId} {range : RangeId}

theorem noted (h : s₀.Planted master σ d s) (hn : s.Noted s') (ho : s₀.Orderly s')
    (hreg : s₀.Regular master master s') : s₀.Planted master σ d s' := by
  rw [hn.same] at ho hreg ⊢
  exact ⟨ho, hreg, h.mastered, h.served, h.own, h.apart, h.inside, h.handles, h.active, h.stands⟩

/-- A handle serves the tree that its slot comes from. -/
theorem handedOver (h : s₀.Planted master σ d s) (hp : Prepared c W s₀) (hroot : Rooted s₀ root d)
    (hb : s.Belongs d f) {link : Link} {document : String} {info target : DocumentInfo}
    {location : Location} {handle : RangeId} {n : Numbering}
    (hh : s.HandedOver s' f link document info range handle n)
    (hgrowing : ∃ r, s.numbering.layout.range? range = some r ∧ r.stage = .growing)
    (htarget : s₀.info? document = some target) (hby : target.embeddedBy = some (d, location))
    (ho : s₀.Orderly s') (hreg : s₀.Regular master master s') : s₀.Planted master σ d s' := by
  obtain ⟨r, hr, hg⟩ := hgrowing
  obtain ⟨e, he, hserves⟩ := h.countsFor_of_rangeIn? hp hh.range_eq hb hroot
  have hstage : ∀ u, s.numbering.layout.range? range = some u → u.stage = .growing := by
    intro u hu
    cases hr.symm.trans hu
    exact hg
  obtain ⟨hretains, hhandle, hkeep⟩ := hserves.assign h.tidy hh.assign hstage
    fun u x hu hx => h.leads_of_leadFor he hserves hroot hu (hstage u hu) hx
  have hnumbering := hh.numbering_eq
  have hroots : s'.roots = s.roots := by
    rw [hh.same]
    rfl
  have henlarges : Enlarges master σ s s' := by
    refine ⟨hnumbering ▸ hretains, fun root typ e he => ?_, fun top i hi => ?_⟩
    · rw [rangeFor?, hroots]
      exact he
    · rw [hnumbering]
      exact hkeep top i hi
  refine h.grow henlarges ho hreg ?mastered hroots ?active (fun i u hu hnone => ?served)
    (fun g frame typ ids j root' hg hk => ?inside)
    (fun d' info' typ j root' hd' hmem => ?handles) fun e en q root' hen hq => ?stands
  case mastered =>
    rw [hnumbering]
    exact h.mastered.assign h.sound hh.assign
  case active =>
    obtain ⟨u, hu, -, -, hl⟩ := Numbering.assign_cases hh.assign
    rw [hnumbering, hl]
    exact (h.sound.claim hu u.subOpened _).active
  case served =>
    rw [hnumbering] at hu ⊢
    rcases Numbering.range?_of_assign h.sound hh.assign hu with rfl | ⟨v, hv⟩
    · exact ⟨_, hhandle⟩
    · cases hv.symm.trans hnone
  case inside =>
    rw [hh.same] at hg
    exact .inl hg
  case handles =>
    refine (hh.handed_cases hd' hmem).imp_right ?_
    -- the document has the root of the one that embeds it
    rintro ⟨rfl, rfl, rfl⟩ hroot'
    cases hroot' with
    | top htop hnone =>
      cases htarget.symm.trans htop
      cases hby.symm.trans hnone
    | inside hinfo hby' hroot' =>
      cases htarget.symm.trans hinfo
      cases hby.symm.trans hby'
      obtain rfl := hroot.unique hroot'
      refine ⟨e, henlarges.entry _ _ e he, henlarges.of_serves ?_⟩
      rw [hnumbering]
      exact hhandle
  case stands =>
    rw [hh.same] at hen
    exact .inl hen

/-- A labeled node claims a slot of the tree, and opens a range that serves it. -/
theorem labeled (h : s₀.Planted master σ d s) (hp : Prepared c W s₀) (hroot : Rooted s₀ root d)
    (hb : s.Belongs d f) {hd : Heading} {entry : EntryId} {inner : FrameId} {slot : SlotId}
    {below : RangeId} {n₁ n₂ : Numbering} (hready : s.Ready (.heading f hd entry inner))
    (hl : s.Labeled s' f hd entry inner range slot below n₁ n₂) (hnested : hd.nested = none)
    (ho : s₀.Orderly s') (hreg : s₀.Regular master master s') : s₀.Planted master σ d s' := by
  obtain ⟨e, he, hserves⟩ := h.countsFor_of_rangeIn? hp hl.range_eq hb hroot
  obtain ⟨hretains₁, hkeep₁⟩ := hserves.next h.tidy hl.next
    fun r x hr hg hx => h.leads_of_leadFor he hserves hroot hr hg hx
  obtain ⟨-, -, -, r, hr, hcur⟩ := h.tidy.next hl.next
  have hserves₁ := hkeep₁ _ _ hserves
  obtain ⟨hretains₂, hbelow, hkeep₂⟩ := hserves₁.sub hl.sub
  have hnumbering : s'.numbering = n₂ := by
    rw [hl.numbering_eq, hnested]
    rfl
  have hroots : s'.roots = s.roots := by rw [hl.same]
  have henlarges : Enlarges master σ s s' := by
    refine ⟨hnumbering ▸ hretains₁.trans hretains₂, fun root typ e he => ?_, fun top i hi => ?_⟩
    · rw [rangeFor?, hroots]
      exact he
    · rw [hnumbering]
      exact hkeep₂ top i (hkeep₁ top i hi)
  obtain ⟨-, hinside, en, hen, hend, htyp⟩ := hready
  have hdoc : s.documentOf f = d := by
    obtain ⟨outer, houter, hd'⟩ := hb.frame
    rw [documentOf_eq houter, hd']
  refine h.grow henlarges ho hreg ?mastered hroots ?active (fun i u hu hnone => ?served)
    (fun g frame' typ ids j root' hg hk => ?inside)
    (fun d' info' typ j root' hd' hmem => ?handles) fun e' en' q root' hen' hq => ?stands
  case mastered =>
    rw [hnumbering]
    exact (h.mastered.next h.sound hl.next).sub hl.sub
  case active =>
    obtain ⟨_, _, _, -, -, -, -, -, -, hopened⟩ := Numbering.sub_cases hl.sub
    rw [hnumbering, hopened.active]
    obtain ⟨u, hu, -, ⟨-, -, rfl⟩ | ⟨-, heq⟩⟩ := Numbering.next_cases hl.next
    · rfl
    · cases heq
      exact (h.sound.claim hu false none).active
  case served =>
    rw [hnumbering] at hu ⊢
    rcases Numbering.range?_of_sub hl.sub hu with rfl | ⟨v, hv⟩
    · exact ⟨_, hbelow⟩
    · obtain ⟨w, hw⟩ := Numbering.range?_of_next h.sound hl.next hv
      cases hw.symm.trans hnone
  case inside =>
    refine (hl.frame_cases hinside hg hk).imp_right ?_
    rintro ⟨rfl, rfl, hdocument⟩ hroot'
    obtain rfl := hroot.unique (hdocument.trans hdoc ▸ hroot')
    refine ⟨e, henlarges.entry _ _ e he, henlarges.of_serves ?_⟩
    rw [hnumbering]
    exact hbelow
  case handles =>
    rw [hl.same] at hd'
    exact .inl ⟨info', hd', hmem⟩
  case stands =>
    rw [hl.entryAt?] at hen'
    split at hen'
    next heq =>
      rw [heq, hen] at hen'
      cases hen'
      cases hq
      refine .inr fun hroot' => ?_
      obtain rfl := hroot.unique (hend.trans hdoc ▸ hroot')
      -- The slot has the lead that the range had for it.
      obtain ⟨t₁, ht₁, -, -, hlead⟩ := ((h.regular.ordered.next hl.next).sequence range r hr).latest
        _ hcur
      obtain ⟨t, ht, hsame⟩ := hretains₂.slot _ t₁ ht₁
      refine ⟨e, t, henlarges.entry _ _ e (htyp ▸ he), ?_, hnumbering ▸ ht, fun x hx => ?_⟩
      · rw [hnumbering]
        exact hretains₂.covers (hserves₁.current r _ hr hcur)
      · exact henlarges.leads (hserves₁.lead r x hr (hlead ▸ hsame ▸ hx))
    · exact .inl hen'

end Planted

end Resolution

/-- How the types of a collection are led: by the type `master` alone, at any depth and with the
separator `σ`. Nodes set no rules. -/
structure Resolution.LedBy (W : List (String × List Visit)) (s₀ : Resolution)
    (master σ : String) : Prop where
  unset : s₀.Unset W master master
  unruled : ∀ d vs f h entry inner, (d, vs) ∈ W → .heading f h entry inner ∈ vs → h.nested = none
  lead : ∀ d info typ lead separator rule, s₀.info? d = some info →
    (info.document.settings.lookup typ).bind TypeSettings.master = some lead →
    Run.newRule s₀.options typ (info.document.settings.lookup typ) = .ok (separator, rule) →
    lead = master ∧ (info.document.settings.lookup typ).bind TypeSettings.limit = none ∧
      separator = σ

/-- Claiming keeps ranges in the trees of their roots. -/
theorem Prepared.planted {c : Collection} {W : List (String × List Visit)} {s₀ : Resolution}
    {master σ : String} (h : Prepared c W s₀) (hinner : s₀.InnerReferences)
    (hled : s₀.LedBy W master σ) : Claiming.Invariant W s₀ (s₀.Planted master σ) where
  start d := by
    refine ⟨(h.orderly hinner).start d, (h.regular hled.unset).start d, ?_, fun i r hr => ?_,
      fun root typ e he => ?_, fun root typ e _ _ _ he => ?_, fun g frame typ ids range _ hg hk => ?_,
      fun d info typ range _ hd hmem => ?_, fun typ range _ ha => ?_, fun e entry q _ he hq => ?_⟩
    · rw [h.numbering]
      exact .empty
    · simp [h.numbering, Layout.range?] at hr
    · obtain ⟨entries, hentries, hmem, -⟩ := rangeFor?_eq_some he
      simp [(h.roots root entries hentries).1] at hmem
    · obtain ⟨entries, hentries, hmem, -⟩ := rangeFor?_eq_some he
      simp [(h.roots root entries hentries).1] at hmem
    · have := h.blank g frame hg
      simp [hk, FrameKind.Blank] at this
    · simp [(h.info d info hd).2.2] at hmem
    · simp [h.numbering, Layout.active?] at ha
    · rw [h.unslotted e entry he] at hq
      cases hq
  progress _ t ht := ⟨ht.progress, ht.sound⟩
  range e t d info typ location separator rule ht hd htyp hnone hrule := by
    refine ht.withRange ((h.orderly hinner).range e t d info typ location separator rule
      ht.toOrderly hd htyp hnone hrule) ((h.regular hled.unset).range e t d info typ location
      separator rule ht.regular hd htyp hnone hrule) fun lead hlead => ?_
    rw [ht.progress.options] at hrule
    exact hled.lead d info typ lead separator rule hd hlead hrule
  active e t d info ht hd :=
    ht.setActive h ((h.orderly hinner).active e t d info ht.toOrderly hd)
      ((h.regular hled.unset).active e t d info ht.regular hd)
  visit t t' d info vs v ht hd hw hv hready hb hvisit := by
    have ho := (h.orderly hinner).visit t t' d info vs v ht.toOrderly hd hw hv hready hb hvisit
    have hreg := (h.regular hled.unset).visit t t' d info vs v ht.regular hd hw hv hready hb hvisit
    obtain ⟨root, -, hroot, -⟩ := h.root d info hd
    cases hvisit with
    | text _ _ hn | term _ _ _ _ hn => exact ht.noted hn ho hreg
    | expansion _ _ _ _ heq => exact heq ▸ ht
    | embedding f key location link document info' range handle n hh =>
      obtain ⟨target, htarget, hby, -⟩ := h.embeddedBy_of_handedOver ht.progress hw hv hh
      exact ht.handedOver h hroot hb hh (h.growing_of_handedOver hinner ht.toOrderly hw hv hb hh)
        htarget hby ho hreg
    | heading f h' entry inner range slot below n₁ n₂ hl =>
      exact ht.labeled h hroot hb hready hl (hled.unruled d vs f h' entry inner hw hv) ho hreg

end Folio
