import Folio.Proofs.Numbering.Growing
import Folio.Proofs.Outline
import Folio.Proofs.Resolution.Chain
import Folio.Proofs.Resolution.Course

/-!
# Claiming the slots of an outline

The walk through an outline claims slots in the order of `Outline.places`. Sections take theirs, and
references hand theirs over to other documents (`Resolution.Placed`). The range that is in use where
the walk sets out need not be known for this, just where it stands: it either grows
(`Walk.claims`), or was made for a section at the top of an embedded document
(`Walk.claims_offered`). Whatever does not belong to the walk is left alone
(`Resolution.Elsewhere`).
-/

namespace Folio

open Resolution

/-! ## The rule for the ranges inside a node -/

namespace Layout

variable {n : Numbering}

theorem HasId.withNested {q : SlotId} {id : LabelId} (h : n.layout.HasId q id) (range : RangeId)
    (nested : Option NestedRule) : (n.withNested range nested).layout.HasId q id := by
  unfold HasId slot?
  rw [Numbering.slots_withNested]
  exact h

theorem Growing.withNested {i : RangeId} {typ : String} {outer : List Nat} {count : Nat}
    (h : n.layout.Growing i typ outer count) (range : RangeId) (nested : Option NestedRule) :
    (n.withNested range nested).layout.Growing i typ outer count := by
  obtain ⟨r, hr, hrest⟩ := h
  obtain ⟨_, _, _, hr'⟩ := Numbering.exists_range?_withNested n range nested hr
  exact ⟨_, hr', hrest⟩

end Layout

namespace Resolution

/-! ## Depth of frames -/

/-- How many frames a frame lies in. -/
inductive Depth (s : Resolution) : Nat → FrameId → Prop
  | top {f : FrameId} (frame : Frame) (hf : s.frame? f = some frame) (hp : frame.parent = none) :
    Depth s 0 f
  | inside {n : Nat} {f g : FrameId} (frame : Frame) (hf : s.frame? f = some frame)
    (hp : frame.parent = some g) (hg : Depth s n g) : Depth s (n + 1) f

theorem Depth.unique {s : Resolution} {m n : Nat} {f : FrameId} (h : s.Depth m f)
    (h' : s.Depth n f) : m = n := by
  induction h generalizing n with
  | top frame hf hp =>
    cases h' with
    | top => rfl
    | inside frame' hf' hp' =>
      cases hf.symm.trans hf'
      simp [hp] at hp'
  | inside frame hf hp _ ih =>
    cases h' with
    | top frame' hf' hp' =>
      cases hf.symm.trans hf'
      simp [hp] at hp'
    | inside frame' hf' hp' hg =>
      cases hf.symm.trans hf'
      cases hp.symm.trans hp'
      rw [ih hg]

theorem Depth.enter {s : Resolution} {n : Nat} {f inner : FrameId} {sort : FrameKind → Prop}
    (h : s.Depth n f) (hi : s.Inside f inner sort) : s.Depth (n + 1) inner := by
  obtain ⟨_, frame, -, hf, hp, -⟩ := hi
  exact .inside frame hf hp h

/-! ## Where entries and documents stand -/

variable (s : Resolution)

/-- The range that was handed over to a document for its top level section. -/
def handle? (d : String) : Option RangeId :=
  (s.info? d).bind fun info => info.handedRanges.lookup s.options.sectionType

/-- The slot of an entry has an id. -/
def EntryAt (e : EntryId) (id : LabelId) : Prop :=
  ∃ entry q, s.registry.entryAt? e = some entry ∧ entry.slot = some q ∧
    s.numbering.layout.HasId q id

/-- A slot with an id was handed over to a document and is not taken yet. -/
def HandedAt (d : String) (id : LabelId) : Prop :=
  ∃ i, s.handle? d = some i ∧ s.numbering.layout.Offers i id

/-- The document that an embedding leads to. -/
def goal? : Visit → Option String
  | .embedding _ _ _ link => s.documentFor? link
  | _ => none

/-- A visit has claimed a slot with the given ordinals, a reference in the document `d` for the
document that it leads to. -/
def Placed (d : String) (t : Resolution) : Visit → Option String × List Nat → Prop
  | .heading _ _ entry _, (none, path) => t.EntryAt entry ⟨s.options.sectionType, path⟩
  | .embedding _ _ _ link, (some written, path) => link.Reads d written ∧
    ∃ document, s.documentFor? link = some document ∧
      t.HandedAt document ⟨s.options.sectionType, path⟩
  | _, _ => False

/-- No range was handed over to two documents. -/
structure Apart : Prop where
  isSome : ∀ d i, s.handle? d = some i → ∃ r, s.numbering.layout.range? i = some r
  eq : ∀ d d' i, s.handle? d = some i → s.handle? d' = some i → d = d'

/-- Claims were made for some entries, and handed over to some documents. All other ones stand where
they stood. -/
structure Elsewhere (t t' : Resolution) (entries : List EntryId) (documents : List String) :
    Prop where
  entryAt : ∀ e id, e ∉ entries → t.EntryAt e id → t'.EntryAt e id
  handedAt : ∀ d id, d ∉ documents → t.HandedAt d id → t'.HandedAt d id
  handle : ∀ d, d ∉ documents → t'.handle? d = t.handle? d
  apart : t.Apart → t'.Apart
  roots : t'.roots = t.roots

variable {s} {t t' t'' : Resolution} {es es' : List EntryId} {ds ds' : List String} {d : String}

namespace Elsewhere

theorem refl (t : Resolution) (es : List EntryId) (ds : List String) : Elsewhere t t es ds :=
  ⟨fun _ _ _ h => h, fun _ _ _ h => h, fun _ _ => rfl, fun h => h, rfl⟩

theorem trans (h : Elsewhere t t' es ds) (h' : Elsewhere t' t'' es' ds') :
    Elsewhere t t'' (es ++ es') (ds ++ ds') where
  entryAt e id he ht := by
    rw [List.mem_append, not_or] at he
    exact h'.entryAt e id he.2 (h.entryAt e id he.1 ht)
  handedAt d id hd ht := by
    rw [List.mem_append, not_or] at hd
    exact h'.handedAt d id hd.2 (h.handedAt d id hd.1 ht)
  handle d hd := by
    rw [List.mem_append, not_or] at hd
    exact (h'.handle d hd.2).trans (h.handle d hd.1)
  apart ha := h'.apart (h.apart ha)
  roots := h'.roots.trans h.roots

end Elsewhere

/-- What stands elsewhere does not move. -/
theorem Placed.elsewhere {v : Visit} {p : Option String × List Nat} (h : s.Placed d t v p)
    (he : Elsewhere t t' es ds) (hv : ∀ e, v.entry? = some e → e ∉ es)
    (hg : ∀ d, s.goal? v = some d → d ∉ ds) : s.Placed d t' v p := by
  obtain ⟨written, path⟩ := p
  cases v <;> cases written <;> try exact h.elim
  · exact he.entryAt _ _ (hv _ rfl) h
  · obtain ⟨hl, document, hd, hh⟩ := h
    exact ⟨hl, document, hd, he.handedAt _ _ (hg document hd) hh⟩

/-! ## The range in use in a frame -/

/-- A frame counts sections. -/
def CountsSections (s : Resolution) (f : FrameId) : Prop :=
  ∃ frame, s.frame? f = some frame ∧ frame.kind.counts s.options.sectionType = true

theorem countingFrame?_self {f : FrameId} {frame : Frame} {typ : String}
    (hf : s.frame? f = some frame) (hc : frame.kind.counts typ = true) :
    s.countingFrame? f typ = some (f, frame) := by
  have hlt : f.index < s.frames.size := (Array.getElem?_eq_some_iff.1 hf).1
  unfold countingFrame? frameChain
  cases hsize : s.frames.size with
  | zero => omega
  | succ n =>
    unfold framesUp
    rw [hf]
    exact List.find?_cons_of_pos hc

/-- The range that is in use inside a node. -/
theorem rangeIn?_subRange {f : FrameId} {frame : Frame} {typ : String} {ids : Ordinals}
    {range : Option RangeId} (hf : s.frame? f = some frame) (hk : frame.kind = .subRange typ ids range) :
    s.rangeIn? f typ = range := by
  unfold rangeIn?
  rw [countingFrame?_self hf (by simp [hk, FrameKind.counts])]
  obtain ⟨parent, document, scope, kind⟩ := frame
  cases hk
  rfl

/-- The range that is in use at the top of a document. -/
theorem rangeIn?_document {f : FrameId} {frame : Frame} {typ : String}
    {ids : List (String × Ordinals)} (hf : s.frame? f = some frame)
    (hk : frame.kind = .document ids) : s.rangeIn? f typ = s.documentRange? frame.document typ := by
  unfold rangeIn?
  rw [countingFrame?_self hf (by simp [hk, FrameKind.counts])]
  obtain ⟨parent, document, scope, kind⟩ := frame
  cases hk
  rfl

theorem documentRange?_congr (ht : s.Progress t) (ht' : s.Progress t')
    (hh : t'.handle? d = t.handle? d) (hr : t'.roots = t.roots) :
    t'.documentRange? d s.options.sectionType = t.documentRange? d s.options.sectionType := by
  cases hd : s.info? d with
  | none =>
    have hnone : ∀ u : Resolution, s.Progress u → u.info? d = none := by
      intro u hu
      cases hinfo : u.info? d with
      | none => rfl
      | some info =>
        obtain ⟨info₀, hinfo₀, -⟩ := hu.info_of hinfo
        cases hd.symm.trans hinfo₀
    unfold documentRange?
    rw [hnone t ht, hnone t' ht']
    rfl
  | some info =>
    obtain ⟨handed, hi⟩ := ht.info d info hd
    obtain ⟨handed', hi'⟩ := ht'.info d info hd
    unfold handle? at hh
    rw [hi, hi', ht.options, ht'.options] at hh
    simp only [Option.bind_some] at hh
    unfold documentRange? rangeFor?
    rw [hi, hi', hr]
    simp only [Option.bind_eq_bind, Option.bind_some]
    rw [hh]

/-- Nothing else decides which range is in use in a frame. -/
theorem CountsSections.rangeIn?_eq {f : FrameId} (h : s.CountsSections f) (ht : s.Progress t)
    (ht' : s.Progress t') (hf : t'.frame? f = t.frame? f)
    (hh : t'.handle? (s.documentOf f) = t.handle? (s.documentOf f)) (hr : t'.roots = t.roots) :
    t'.rangeIn? f s.options.sectionType = t.rangeIn? f s.options.sectionType := by
  obtain ⟨frame, hframe, hc⟩ := h
  obtain ⟨frame₁, hframe₁, ha⟩ := ht.frame f frame hframe
  have hc₁ := ha.2.2.2.counts_eq s.options.sectionType
  rw [hc] at hc₁
  cases hk : frame₁.kind with
  | document ids =>
    rw [rangeIn?_document hframe₁ hk, rangeIn?_document (hf.trans hframe₁) hk, ha.2.1,
      ← documentOf_eq hframe]
    exact documentRange?_congr ht ht' hh hr
  | subRange typ ids range =>
    obtain rfl : typ = s.options.sectionType := by simpa [hk, FrameKind.counts] using hc₁
    rw [rangeIn?_subRange hframe₁ hk, rangeIn?_subRange (hf.trans hframe₁) hk]
  | block calls => simp [hk, FrameKind.counts] at hc₁
  | static => simp [hk, FrameKind.counts] at hc₁

/-! ## The visits -/

namespace Labeled

variable {f : FrameId} {h : Heading} {entry : EntryId} {inner : FrameId} {range : RangeId}
  {slot : SlotId} {below : RangeId} {n₁ n₂ : Numbering}

theorem below_ne (hl : t.Labeled t' f h entry inner range slot below n₁ n₂)
    (hs : t.numbering.layout.Sound) {i : RangeId} {r : Range}
    (hr : t.numbering.layout.range? i = some r) : i ≠ below := by
  obtain ⟨r₁, hr₁, -⟩ := Range.SameSettings.next hs hl.next hr
  obtain ⟨-, -, -, -, -, -, -, rfl, -⟩ := Numbering.sub_cases hl.sub
  exact Layout.ne_freshRange hr₁

theorem beside (hl : t.Labeled t' f h entry inner range slot below n₁ n₂)
    (hs : t.numbering.layout.Sound) : t.numbering.layout.Beside t'.numbering.layout range := by
  have hb := (Layout.Beside.next hs hl.next).trans (.sub hl.sub)
  rw [hl.numbering_eq]
  refine ⟨fun q id hq => (hb.slot q id hq).withNested .., fun i r hi hr => ?_⟩
  rw [Numbering.range?_withNested _ _ _ (hl.below_ne hs hr)]
  exact hb.range i r hi hr

/-- A claim in a range that grows. -/
theorem growing (hl : t.Labeled t' f h entry inner range slot below n₁ n₂)
    (hs : t.numbering.layout.Sound) {typ : String} {outer : List Nat} {count : Nat}
    (hg : t.numbering.layout.Growing range typ outer count) :
    t'.numbering.layout.HasId slot ⟨typ, outer ++ [count + 1]⟩ ∧
      t'.numbering.layout.Growing range typ outer (count + 1) ∧
      t'.numbering.layout.Growing below typ (outer ++ [count + 1]) 0 := by
  obtain ⟨hq, hrange, hbelow⟩ := hg.claim hs hl.next hl.sub
  rw [hl.numbering_eq]
  exact ⟨hq.withNested .., hrange.withNested .., hbelow.withNested ..⟩

/-- A claim of the slot that a range was made for. -/
theorem offered (hl : t.Labeled t' f h entry inner range slot below n₁ n₂) {id : LabelId}
    (ho : t.numbering.layout.Offers range id) : t'.numbering.layout.HasId slot id ∧
      t'.numbering.layout.Growing below id.typ id.path 0 := by
  obtain ⟨hq, hbelow⟩ := ho.claim hl.next hl.sub
  rw [hl.numbering_eq]
  exact ⟨hq.withNested .., hbelow.withNested ..⟩

theorem handle?_eq (hl : t.Labeled t' f h entry inner range slot below n₁ n₂) (d : String) :
    t'.handle? d = t.handle? d := by
  rw [hl.same]
  rfl

/-- Nothing is handed over, and only the entry of the node gets a slot. -/
theorem elsewhere (hl : t.Labeled t' f h entry inner range slot below n₁ n₂)
    (hs : t.numbering.layout.Sound)
    (hd : ∀ d i id, d ∉ ds → t.handle? d = some i → t.numbering.layout.Offers i id → i ≠ range) :
    Elsewhere t t' [entry] ds where
  entryAt e id he := by
    rintro ⟨en, q, hen, hq, hid⟩
    refine ⟨en, q, ?_, hq, (hl.beside hs).slot q id hid⟩
    rw [hl.entryAt?, if_neg (by simpa using he), hen]
  handedAt d id hmem := by
    rintro ⟨i, hi, ho⟩
    exact ⟨i, (hl.handle?_eq d).trans hi, (hl.beside hs).offers (hd d i id hmem hi ho) ho⟩
  handle d _ := hl.handle?_eq d
  apart ha := by
    refine ⟨fun d i hi => ?_, fun d d' i hi hi' => ?_⟩
    · rw [hl.handle?_eq] at hi
      obtain ⟨r, hr⟩ := ha.isSome d i hi
      obtain ⟨r₁, hr₁, -⟩ := Range.SameSettings.next hs hl.next hr
      obtain ⟨r₂, hr₂, -⟩ := Range.SameSettings.sub hl.sub hr₁
      obtain ⟨_, _, _, hr'⟩ := Numbering.exists_range?_withNested n₂ below h.nested hr₂
      exact ⟨_, hl.numbering_eq ▸ hr'⟩
    · rw [hl.handle?_eq] at hi hi'
      exact ha.eq d d' i hi hi'
  roots := by rw [hl.same]

/-- The slot of the entry, and the range for the nodes inside. -/
theorem entryAt (hl : t.Labeled t' f h entry inner range slot below n₁ n₂) {id : LabelId}
    {document typ : String} (hr : t.Registered entry document typ)
    (hid : t'.numbering.layout.HasId slot id) : t'.EntryAt entry id := by
  obtain ⟨en, hen, -⟩ := hr
  have hentry := hl.entryAt? entry
  rw [if_pos rfl, hen] at hentry
  exact ⟨_, slot, hentry, rfl, hid⟩

theorem rangeIn?_inner (hl : t.Labeled t' f h entry inner range slot below n₁ n₂)
    (hi : t.Inside f inner (IsSubRange (h.typeIn t.options))) :
    t'.rangeIn? inner (h.typeIn t.options) = some below := by
  obtain ⟨-, frame, -, hframe, -, -, hsort⟩ := hi
  have hframe' := hl.frame? inner
  rw [frame?_modifyKind, if_pos rfl, hframe, Option.map_some] at hframe'
  cases hk : frame.kind with
  | subRange typ ids before =>
    rw [hk] at hsort
    obtain rfl : typ = h.typeIn t.options := hsort
    exact rangeIn?_subRange hframe' (show _ = FrameKind.subRange _ ids (some below) by rw [hk]; rfl)
  | _ => simp [hk, IsSubRange] at hsort

theorem frame?_eq (hl : t.Labeled t' f h entry inner range slot below n₁ n₂) {g : FrameId}
    (hg : g ≠ inner) : t'.frame? g = t.frame? g := by
  rw [hl.frame?, frame?_modifyKind, if_neg hg]

end Labeled

namespace HandedOver

variable {f : FrameId} {link : Link} {document : String} {info : DocumentInfo}
  {range handle : RangeId} {n : Numbering}

theorem handle?_eq (hh : t.HandedOver t' f link document info range handle n) (d : String) :
    t'.handle? d = if d = document then some handle else t.handle? d := by
  have ho : t'.options = t.options := by
    rw [hh.same]
    rfl
  unfold handle?
  rw [hh.info?, ho]
  split
  next heq =>
    rw [heq, hh.info_eq]
    simp
  · rfl

/-- Only the document that the reference leads to gets something. -/
theorem elsewhere (hh : t.HandedOver t' f link document info range handle n)
    (hs : t.numbering.layout.Sound) {typ : String} {outer : List Nat} {count : Nat}
    (hg : t.numbering.layout.Growing range typ outer count) :
    Elsewhere t t' [] [document] := by
  obtain ⟨-, -, hb, hfresh⟩ := hg.assign hs hh.assign
  rw [← hh.numbering_eq] at hb
  have hold : ∀ i r, t.numbering.layout.range? i = some r →
      ∃ r, t'.numbering.layout.range? i = some r := by
    intro i r hr
    obtain ⟨r', hr', -⟩ := Range.SameSettings.assign hs hh.assign hr
    exact ⟨r', hh.numbering_eq ▸ hr'⟩
  refine ⟨fun e id _ => ?entryAt, fun d id hd => ?handedAt, fun d hd => ?handle,
    fun ha => ⟨fun d i hi => ?isSome, ?eq⟩, ?roots⟩
  case entryAt =>
    rintro ⟨en, q, hen, hq, hid⟩
    refine ⟨en, q, ?_, hq, hb.slot q id hid⟩
    rw [hh.same]
    exact hen
  case handedAt =>
    rintro ⟨i, hi, ho⟩
    refine ⟨i, ?_, hb.offers (hg.ne_of_offers ho) ho⟩
    rw [hh.handle?_eq, if_neg (by simpa using hd), hi]
  case handle =>
    rw [hh.handle?_eq, if_neg (by simpa using hd)]
  case isSome =>
    rw [hh.handle?_eq] at hi
    split at hi
    · cases hi
      obtain ⟨r, -, hr⟩ := Numbering.range?_handle hh.assign
      exact ⟨_, hh.numbering_eq ▸ hr⟩
    · obtain ⟨r, hr⟩ := ha.isSome d i hi
      exact hold i r hr
  case eq =>
    have hne : ∀ d, t.handle? d ≠ some handle := by
      intro d hd
      obtain ⟨r, hr⟩ := ha.isSome d handle hd
      simp [hfresh] at hr
    intro d d' i hi hi'
    rw [hh.handle?_eq] at hi hi'
    split at hi <;> split at hi'
    · next h h' => rw [h, h']
    · cases hi
      exact (hne d' hi').elim
    · cases hi'
      exact (hne d hi).elim
    · exact ha.eq d d' i hi hi'
  case roots =>
    rw [hh.same]
    rfl

end HandedOver

/-! ## The walk -/

/-- A walk comes to each entry once, embeds each document once, and not the one it is in. -/
structure Untangled (s : Resolution) (f : FrameId) (vs : List Visit) : Prop where
  entries : (vs.filterMap Visit.entry?).Nodup
  goals : (vs.filterMap s.goal?).Nodup
  own : s.documentOf f ∉ vs.filterMap s.goal?

namespace Untangled

variable {f : FrameId} {v : Visit} {vs ws : List Visit}

theorem left (h : s.Untangled f (ws ++ vs)) : s.Untangled f ws := by
  obtain ⟨he, hg, ho⟩ := h
  rw [List.filterMap_append] at he hg ho
  exact ⟨(List.nodup_append.1 he).1, (List.nodup_append.1 hg).1, fun hm => ho (by simp [hm])⟩

theorem right (h : s.Untangled f (ws ++ vs)) : s.Untangled f vs := by
  obtain ⟨he, hg, ho⟩ := h
  rw [List.filterMap_append] at he hg ho
  exact ⟨(List.nodup_append.1 he).2.1, (List.nodup_append.1 hg).2.1, fun hm => ho (by simp [hm])⟩

theorem tail (h : s.Untangled f (v :: vs)) : s.Untangled f vs :=
  (show s.Untangled f ([v] ++ vs) from h).right

/-- What a part of a walk comes to, the rest of the walk does not. -/
theorem disjoint (h : s.Untangled f (ws ++ vs)) (hv : v ∈ ws) :
    (∀ e, v.entry? = some e → e ∉ vs.filterMap Visit.entry?) ∧
      ∀ d, s.goal? v = some d → d ∉ vs.filterMap s.goal? := by
  obtain ⟨he, hg, -⟩ := h
  rw [List.filterMap_append] at he hg
  refine ⟨fun e hve hm => ?_, fun d hvd hm => ?_⟩
  · exact (List.nodup_append.1 he).2.2 e (List.mem_filterMap.2 ⟨v, hv, hve⟩) e hm rfl
  · exact (List.nodup_append.1 hg).2.2 d (List.mem_filterMap.2 ⟨v, hv, hvd⟩) d hm rfl

theorem head (h : s.Untangled f (v :: vs)) :
    (∀ e, v.entry? = some e → e ∉ vs.filterMap Visit.entry?) ∧
      ∀ d, s.goal? v = some d → d ∉ vs.filterMap s.goal? :=
  (show s.Untangled f ([v] ++ vs) from h).disjoint (List.mem_singleton_self v)

theorem enter {inner : FrameId} {sort : FrameKind → Prop} (h : s.Untangled f vs)
    (hi : s.Inside f inner sort) : s.Untangled inner vs := by
  obtain ⟨outer, frame, ho, hf, -, hd, -⟩ := hi
  refine ⟨h.entries, h.goals, ?_⟩
  rw [documentOf_eq hf, hd, ← documentOf_eq ho]
  exact h.own

end Untangled

/-- The visits `vs` were made from the frame at `f`, and claimed slots at the places `ps`. -/
structure Outlined (s : Resolution) (f : FrameId) (n : Nat) (vs : List Visit)
    (ps : List (Option String × List Nat)) (t t' : Resolution) : Prop where
  progress : s.Progress t'
  sound : t'.numbering.layout.Sound
  elsewhere : Elsewhere t t' (vs.filterMap Visit.entry?) (vs.filterMap s.goal?)
  growing : ∀ i typ outer count, t.rangeIn? f s.options.sectionType ≠ some i →
    t.numbering.layout.Growing i typ outer count → t'.numbering.layout.Growing i typ outer count
  frame : ∀ g m, m ≤ n → s.Depth m g → t'.frame? g = t.frame? g
  placed : List.Forall₂ (s.Placed (s.documentOf f) t') vs ps

theorem Inside.countsSections {f inner : FrameId} {typ : String}
    (hi : s.Inside f inner (IsSubRange typ)) (ht : typ = s.options.sectionType) :
    s.CountsSections inner := by
  obtain ⟨-, frame, -, hf, -, -, hsort⟩ := hi
  refine ⟨frame, hf, ?_⟩
  cases hk : frame.kind <;> rw [hk] at hsort <;> try exact hsort.elim
  exact decide_eq_true (hsort.trans ht)

/-- Later visits leave the slots of earlier ones alone. -/
theorem placed_mono {vs ws : List Visit} {ps : List (Option String × List Nat)} {f : FrameId}
    (h : List.Forall₂ (s.Placed d t) ws ps) (hu : s.Untangled f (ws ++ vs))
    (he : Elsewhere t t' (vs.filterMap Visit.entry?) (vs.filterMap s.goal?)) :
    List.Forall₂ (s.Placed d t') ws ps :=
  ((List.forall₂_and_left ..).2 ⟨fun _ hv => hu.disjoint hv, h⟩).imp
    fun _ _ ⟨hv, hp⟩ => hp.elsewhere he hv.1 hv.2

namespace Outlined

variable {f : FrameId} {n : Nat} {vs ws : List Visit} {ps qs : List (Option String × List Nat)}

/-- The range in use where the walk set out is found as it was left. -/
theorem rangeIn?_eq (h : s.Outlined f n vs ps t t') (hp : s.Progress t) (hn : s.Depth n f)
    (hc : s.CountsSections f) (hu : s.Untangled f vs) :
    t'.rangeIn? f s.options.sectionType = t.rangeIn? f s.options.sectionType :=
  hc.rangeIn?_eq hp h.progress (h.frame f n (Nat.le_refl n) hn) (h.elsewhere.handle _ hu.own)
    h.elsewhere.roots

theorem append (h : s.Outlined f n ws ps t t') (h' : s.Outlined f n vs qs t' t'')
    (hr : t'.rangeIn? f s.options.sectionType = t.rangeIn? f s.options.sectionType)
    (hu : s.Untangled f (ws ++ vs)) : s.Outlined f n (ws ++ vs) (ps ++ qs) t t'' where
  progress := h'.progress
  sound := h'.sound
  elsewhere := by
    rw [List.filterMap_append, List.filterMap_append]
    exact h.elsewhere.trans h'.elsewhere
  growing i typ outer count hi hg :=
    h'.growing i typ outer count (hr ▸ hi) (h.growing i typ outer count hi hg)
  frame g m hm hd := (h'.frame g m hm hd).trans (h.frame g m hm hd)
  placed := List.rel_append (placed_mono h.placed hu h'.elsewhere) h'.placed

/-- A section and what lies in it. The range at hand has moved on by one slot. -/
theorem heading {h : Heading} {entry : EntryId} {inner : FrameId} {range : RangeId} {slot : SlotId}
    {below : RangeId} {n₁ n₂ : Numbering} {outer : List Nat} {count : Nat}
    (hl : t.Labeled t' f h entry inner range slot below n₁ n₂)
    (htyp : h.typeIn t.options = s.options.sectionType)
    (hready : t.Ready (.heading f h entry inner)) (hs : t.numbering.layout.Sound)
    (hg : t.numbering.layout.Growing range s.options.sectionType outer count)
    (hi : s.Inside f inner (IsSubRange (h.typeIn s.options))) (hn : s.Depth n f)
    (hu : s.Untangled f (.heading f h entry inner :: vs))
    (hb : s.Outlined inner (n + 1) vs ps t' t'') :
    s.Outlined f n (.heading f h entry inner :: vs) ((none, outer ++ [count + 1]) :: ps) t t'' ∧
      t''.numbering.layout.Growing range s.options.sectionType outer (count + 1) := by
  obtain ⟨hslot, hrange, -⟩ := hl.growing hs hg
  have hat : t.rangeIn? f s.options.sectionType = some range := htyp ▸ hl.range_eq
  have hinner : t'.rangeIn? inner s.options.sectionType = some below :=
    htyp ▸ hl.rangeIn?_inner hready.2.1
  have hold : ∀ i typ outer count, t.numbering.layout.Growing i typ outer count →
      t'.rangeIn? inner s.options.sectionType ≠ some i := by
    intro i typ outer count hgi heq
    obtain ⟨r, hr⟩ := hgi.isSome
    rw [hinner] at heq
    cases heq
    exact hl.below_ne hs hr rfl
  have hne : ∀ g m, m ≤ n → s.Depth m g → g ≠ inner := by
    rintro g m hm hd rfl
    have := (hn.enter hi).unique hd
    omega
  have hentry : s.Placed (s.documentOf f) t' (.heading f h entry inner)
      (none, outer ++ [count + 1]) := hl.entryAt hready.2.2 hslot
  have hown : s.documentOf inner = s.documentOf f := hi.documentOf
  have helse : Elsewhere t t' [entry] [] :=
    hl.elsewhere hs fun d i id _ _ ho => hg.ne_of_offers ho
  refine ⟨⟨hb.progress, hb.sound, ?_, fun i typ outer' k hi' hgi => ?_, fun g m hm hd => ?_, ?_⟩,
    hb.growing range _ _ _ (hold range _ _ _ hg) hrange⟩
  · rw [List.filterMap_cons_some (f := Visit.entry?) (b := entry) rfl,
      List.filterMap_cons_none rfl]
    exact helse.trans hb.elsewhere
  · refine hb.growing i _ _ _ (hold i _ _ _ hgi) ?_
    refine (hl.beside hs).growing ?_ hgi
    rintro rfl
    exact hi' hat
  · rw [hb.frame g m (by omega) hd, hl.frame?_eq (hne g m hm hd)]
  · exact .cons (hentry.elsewhere hb.elsewhere hu.head.1 fun _ h => by cases h) (hown ▸ hb.placed)

/-- A reference to another document. -/
theorem embedding (key : NodeKey) (location : Location) {written : String} {link : Link}
    {document : String} {info : DocumentInfo} {range handle : RangeId} {n' : Numbering}
    {outer : List Nat} {count : Nat}
    (hh : t.HandedOver t' f link document info range handle n') (hp : s.Progress t)
    (hp' : s.Progress t') (hs : t.numbering.layout.Sound) (hs' : t'.numbering.layout.Sound)
    (hg : t.numbering.layout.Growing range s.options.sectionType outer count)
    (hread : link.Reads (s.documentOf f) written) :
    s.Outlined f n [.embedding f key location link] [(some written, outer ++ [count + 1])] t t' ∧
      t'.numbering.layout.Growing range s.options.sectionType outer (count + 1) := by
  obtain ⟨hrange, hoffers, hb, -⟩ := hg.assign hs hh.assign
  rw [← hh.numbering_eq] at hrange hoffers hb
  have hat : t.rangeIn? f s.options.sectionType = some range := hp.options ▸ hh.range_eq
  have hgoal : s.goal? (.embedding f key location link) = some document := by
    rw [goal?, ← hp.documentFor?]
    exact hh.document_eq
  refine ⟨⟨hp', hs', ?_, fun i typ outer' k hi hgi => ?_, fun g _ _ _ => ?_, .cons ?_ .nil⟩, hrange⟩
  · rw [List.filterMap_cons_none rfl, List.filterMap_cons_some hgoal]
    exact hh.elsewhere hs hg
  · refine hb.growing ?_ hgi
    rintro rfl
    exact hi hat
  · rw [hh.same]
    rfl
  · exact ⟨hread, document, hgoal, handle, by rw [hh.handle?_eq, if_pos rfl], hoffers⟩

end Outlined

end Resolution

/-- A walk that sets out in a range that grows claims the places of the outline. -/
theorem Walk.claims {s : Resolution} {f : FrameId} {ns : List Node} {vs : List Visit}
    (h : Walk s f ns vs) : ∀ {ds : List NodeDescription}, Outline.Makes ds ns →
    ∀ {n : Nat} {t : Resolution} (outer : List Nat) (count : Nat), s.Depth n f →
      s.CountsSections f → s.Untangled f vs → s.Progress t → t.numbering.layout.Sound →
      (∀ i, t.rangeIn? f s.options.sectionType = some i →
        t.numbering.layout.Growing i s.options.sectionType outer count) →
      After True (vs.forM Run.labelVisit) t fun _ t' =>
        s.Outlined f n vs (Outline.places outer count ds) t t' := by
  induction h with
  | nil f =>
    intro ds hm n t outer count hn hc hu hp hs hg
    cases hm
    exact ⟨hp, hs, .refl t _ _, fun _ _ _ _ _ h => h, fun _ _ _ _ => rfl, .nil⟩
  | text | term | expansion =>
    intro ds hm
    cases hm
  | @labeled f h body rest entry inner ws vs hst hi he hb hr ihb ihr =>
    intro ds hm n t outer count hn hc hu hp hs hg
    cases hm with
    | heading title htyp _ hmb hmr =>
    have hready : t.Ready (.heading f h entry inner) := Ready.keeps ⟨hst, hi, he⟩ hp.toKeeps
    rw [After.forM_cons]
    refine (Run.labelVisit_spec hready).mono fun _ t₁ hv => ?_
    obtain ⟨hp₁, hs₁⟩ := hv.progress hs
    cases hv with
    | heading _ _ _ _ range slot below n₁ n₂ hl =>
    have hsection : h.typeIn s.options = s.options.sectionType := by rw [Heading.typeIn, htyp]; rfl
    have htypeIn : h.typeIn t.options = s.options.sectionType := by rw [hp.options, hsection]
    have hrange : t.rangeIn? f s.options.sectionType = some range := htypeIn ▸ hl.range_eq
    have hgrow := hg range hrange
    -- the nodes inside are walked in the range below the slot
    rw [After.forM_append]
    refine (ihb hmb (outer ++ [count + 1]) 0 (hn.enter hi) (hi.countsSections hsection)
      (hu.tail.left.enter hi) (hp.trans hp₁) hs₁ fun i hi' => ?_).mono fun _ t₂ h₂ => ?_
    · cases (htypeIn ▸ hl.rangeIn?_inner hready.2.1).symm.trans hi'
      exact (hl.growing hs hgrow).2.2
    -- and the other ones in the range at hand
    have huw : s.Untangled f (.heading f h entry inner :: ws) :=
      (show s.Untangled f ((.heading f h entry inner :: ws) ++ vs) from hu).left
    obtain ⟨h₁₂, hrange₂⟩ := Outlined.heading hl htypeIn hready hs hgrow hi hn huw h₂
    have hin := h₁₂.rangeIn?_eq hp hn hc huw
    refine (ihr hmr outer (count + 1) hn hc hu.tail.right h₂.progress h₂.sound fun i hi' => ?_).mono
      fun _ t₃ h₃ => h₁₂.append h₃ hin hu
    rw [hin, hrange] at hi'
    cases hi'
    exact hrange₂
  | @embedding f key location written link rest vs hst hread hr ih =>
    intro ds hm n t outer count hn hc hu hp hs hg
    cases hm with
    | embedding _ _ _ hmr =>
    have hready : t.Ready (.embedding f key location link) := Ready.keeps hst hp.toKeeps
    rw [After.forM_cons]
    refine (Run.labelVisit_spec hready).mono fun _ t₁ hv => ?_
    obtain ⟨hp₁, hs₁⟩ := hv.progress hs
    cases hv with
    | embedding _ _ _ _ document info range handle n' hh =>
    have hrange : t.rangeIn? f s.options.sectionType = some range := hp.options ▸ hh.range_eq
    obtain ⟨h₁, hrange₁⟩ := Outlined.embedding (n := n) key location hh hp (hp.trans hp₁) hs hs₁
      (hg range hrange) hread
    have hin := h₁.rangeIn?_eq hp hn hc
      (show s.Untangled f ([.embedding f key location link] ++ vs) from hu).left
    refine (ih hmr outer (count + 1) hn hc hu.tail (hp.trans hp₁) hs₁ fun i hi' => ?_).mono
      fun _ t₂ h₂ => h₁.append h₂ hin hu
    rw [hin, hrange] at hi'
    cases hi'
    exact hrange₁

/-- The walk through an embedded document, which has one section at the top, takes the slot that was
handed over and claims the places below. -/
theorem Walk.claims_offered {s : Resolution} {f : FrameId} {ns : List Node} {vs : List Visit}
    (h : Walk s f ns vs) {title : String} {body : List NodeDescription}
    (hm : Outline.Makes [.heading none title body] ns) {n : Nat} {t : Resolution}
    (outer : List Nat) (count : Nat) (hn : s.Depth n f) (hu : s.Untangled f vs)
    (hp : s.Progress t) (hs : t.numbering.layout.Sound) (ha : t.Apart)
    (ho : ∀ i, t.rangeIn? f s.options.sectionType = some i → t.handle? (s.documentOf f) = some i ∧
      t.numbering.layout.Offers i ⟨s.options.sectionType, outer ++ [count + 1]⟩) :
    After True (vs.forM Run.labelVisit) t fun _ t' => s.Progress t' ∧
      t'.numbering.layout.Sound ∧
      Elsewhere t t' (vs.filterMap Visit.entry?) (s.documentOf f :: vs.filterMap s.goal?) ∧
      List.Forall₂ (s.Placed (s.documentOf f) t') vs
        (Outline.places outer count [.heading none title body]) := by
  cases hm with
  | @heading _ _ _ h _ _ htyp _ hmb hmr =>
  cases hmr
  cases h with
  | @labeled _ _ _ _ entry inner ws _ hst hi he hb hr =>
  cases hr
  rw [List.append_nil] at hu ⊢
  have hready : t.Ready (.heading f h entry inner) := Ready.keeps ⟨hst, hi, he⟩ hp.toKeeps
  rw [After.forM_cons]
  refine (Run.labelVisit_spec hready).mono fun _ t₁ hv => ?_
  obtain ⟨hp₁, hs₁⟩ := hv.progress hs
  cases hv with
  | heading _ _ _ _ range slot below n₁ n₂ hl =>
  have hsection : h.typeIn s.options = s.options.sectionType := by rw [Heading.typeIn, htyp]; rfl
  have htypeIn : h.typeIn t.options = s.options.sectionType := by rw [hp.options, hsection]
  obtain ⟨hhandle, hoffers⟩ := ho range (htypeIn ▸ hl.range_eq)
  obtain ⟨hslot, hbelow₁⟩ := hl.offered hoffers
  have helse₁ : Elsewhere t t₁ [entry] [s.documentOf f] := by
    refine hl.elsewhere hs fun d i id hd hi _ => ?_
    rintro rfl
    exact hd (by rw [ha.eq d _ i hi hhandle]; exact List.mem_singleton_self _)
  have hinner : t₁.rangeIn? inner s.options.sectionType = some below :=
    htypeIn ▸ hl.rangeIn?_inner hready.2.1
  refine (hb.claims hmb (outer ++ [count + 1]) 0 (hn.enter hi) (hi.countsSections hsection)
    (hu.tail.enter hi) (hp.trans hp₁) hs₁ fun i hi' => ?_).mono
      fun _ t₂ h₂ => ⟨h₂.progress, h₂.sound, ?_, ?_⟩
  · rw [hinner] at hi'
    cases hi'
    exact hbelow₁
  · rw [List.filterMap_cons_some (f := Visit.entry?) (b := entry) rfl,
      List.filterMap_cons_none rfl]
    exact helse₁.trans h₂.elsewhere
  · rw [Outline.places_heading, Outline.places_nil, List.append_nil]
    have hown : s.documentOf inner = s.documentOf f := hi.documentOf
    have hentry : s.Placed (s.documentOf f) t₁ (.heading f h entry inner)
        (none, outer ++ [count + 1]) := hl.entryAt hready.2.2 hslot
    obtain ⟨hd, -⟩ := hu.head
    exact .cons (hentry.elsewhere h₂.elsewhere hd fun _ h => by cases h) (hown ▸ h₂.placed)

end Folio
