import Folio.Proofs.Resolution.Chain
import Folio.Proofs.Resolution.Tally

/-!
# Ids are given out once

Every frame that counts a label type has a sequence of ids of its own. A `Ledger` says in which
document each of these sequences counts and how far it got. It is sound (`Ledger.Sound`) if
different sequences of a type in a document have different beginnings, each of which is the top or
an id that was given out. Then the next id of a sequence was never given out before in the document
(`Ledger.Sound.not_allotted_next`), whatever frames it is counted in, and a sequence may begin at it.

Both things that registration does to the ledger keep it sound: it goes on to the next id
(`Ledger.Sound.next`, `Run.nextId_ledger`), and it opens a sequence below that id
(`Ledger.Sound.enter`).
-/

namespace Folio

open Resolution

/-- The document in which a frame counts a label type, and the ids that were given out. -/
structure Ledger where
  document? : FrameId → String → Option String
  tally : Tally

namespace Ledger

/-- An id was given out in a document. -/
def Allotted (L : Ledger) (d : String) (id : LabelId) : Prop :=
  ∃ f k, L.document? f id.typ = some d ∧ id.path = (L.tally f id.typ).outer ++ [k] ∧
    0 < k ∧ k ≤ (L.tally f id.typ).count

/-- Different sequences begin differently, at the top or at an id that was given out. -/
structure Sound (L : Ledger) : Prop where
  unique : ∀ d typ f g, L.document? f typ = some d → L.document? g typ = some d →
    (L.tally f typ).outer = (L.tally g typ).outer → f = g
  inside : ∀ d typ f, L.document? f typ = some d → (L.tally f typ).outer = [] ∨
    L.Allotted d ⟨typ, (L.tally f typ).outer⟩

/-- A frame goes on to the next id of a label type. -/
def next (L : Ledger) (f : FrameId) (typ : String) : Ledger :=
  { L with tally := L.tally.put f typ (L.tally f typ).next }

/-- A new frame of a document counts below an id. -/
def enter (L : Ledger) (f : FrameId) (d : String) (id : LabelId) : Ledger where
  document? g typ := if g = f ∧ typ = id.typ then some d else L.document? g typ
  tally := L.tally.put f id.typ (.below id)

variable {L : Ledger} {d d' typ : String} {f g : FrameId} {id id' : LabelId}

theorem Allotted.path_ne_nil (h : L.Allotted d id) : id.path ≠ [] := by
  obtain ⟨f, k, -, hpath, -⟩ := h
  rw [hpath]
  simp

/-! ## The next id -/

theorem outer_next (g : FrameId) (t : String) :
    ((L.next f typ).tally g t).outer = (L.tally g t).outer := by
  by_cases h : g = f ∧ t = typ
  · obtain ⟨rfl, rfl⟩ := h
    simp [next, Tally.put, Ordinals.next]
  · simp [next, Tally.put, h]

/-- Besides the ids that were given out before there is the next one. -/
theorem allotted_next_iff : (L.next f typ).Allotted d' id' ↔ L.Allotted d' id' ∨
    L.document? f typ = some d' ∧ id' = (L.tally f typ).next.id typ := by
  constructor
  · rintro ⟨g, k, hg, hpath, hpos, hle⟩
    rw [outer_next] at hpath
    by_cases h : g = f ∧ id'.typ = typ
    · obtain ⟨rfl, rfl⟩ := h
      have hle : k ≤ (L.tally g id'.typ).count + 1 := by
        simpa [next, Tally.put, Ordinals.next] using hle
      rcases Nat.lt_or_eq_of_le hle with hlt | rfl
      · exact .inl ⟨g, k, hg, hpath, hpos, by omega⟩
      · refine .inr ⟨hg, ?_⟩
        obtain ⟨t, path⟩ := id'
        exact congrArg (LabelId.mk t) hpath
    · have hle : k ≤ (L.tally g id'.typ).count := by simpa [next, Tally.put, h] using hle
      exact .inl ⟨g, k, hg, hpath, hpos, hle⟩
  · rintro (⟨g, k, hg, hpath, hpos, hle⟩ | ⟨hf, rfl⟩)
    · refine ⟨g, k, hg, by rw [outer_next, hpath], hpos, Nat.le_trans hle ?_⟩
      by_cases h : g = f ∧ id'.typ = typ
      · obtain ⟨rfl, rfl⟩ := h
        simp [next, Tally.put, Ordinals.next]
      · simp [next, Tally.put, h]
    · exact ⟨f, (L.tally f typ).count + 1, hf, by rw [outer_next]; rfl, by omega,
        by simp [next, Tally.put, Ordinals.next, Ordinals.id]⟩

namespace Sound

variable (h : L.Sound) (hf : L.document? f typ = some d)

include h hf

/-- The next id of a sequence was given out by no sequence of the document. -/
theorem not_allotted_next : ¬L.Allotted d ((L.tally f typ).next.id typ) := by
  rintro ⟨g, k, hg, hpath, -, hle⟩
  obtain ⟨houter, hk⟩ := List.append_inj' hpath rfl
  obtain rfl : f = g := h.unique d typ f g hf hg houter
  have hk : (L.tally f typ).count + 1 = k := by simpa [Ordinals.next] using hk
  exact absurd hle (by simp only [Ordinals.id]; omega)

/-- So no sequence begins there. -/
theorem outer_ne_next (hg : L.document? g typ = some d) :
    (L.tally g typ).outer ≠ ((L.tally f typ).next.id typ).path := by
  intro heq
  obtain hnil | hallotted := h.inside d typ g hg
  · rw [hnil] at heq
    simp [Ordinals.id] at heq
  · rw [heq] at hallotted
    exact h.not_allotted_next hf hallotted

omit hf in
theorem next : (L.next f typ).Sound where
  unique d' t g g' hg hg' houter := by
    rw [outer_next, outer_next] at houter
    exact h.unique d' t g g' hg hg' houter
  inside d' t g hg := by
    rw [outer_next]
    exact (h.inside d' t g hg).imp_right fun hallotted => allotted_next_iff.2 (.inl hallotted)

end Sound

/-! ## A sequence below an id -/

/-- Nothing is given out when a frame is opened. -/
theorem allotted_enter_iff (hf : ∀ t, L.document? f t = none) :
    (L.enter f d id).Allotted d' id' ↔ L.Allotted d' id' := by
  constructor
  · rintro ⟨g, k, hg, hpath, hpos, hle⟩
    by_cases h : g = f ∧ id'.typ = id.typ
    · have hle : k ≤ 0 := by simpa [enter, Tally.put, h, Ordinals.below] using hle
      omega
    · exact ⟨g, k, by simpa [enter, h] using hg, by simpa [enter, Tally.put, h] using hpath, hpos,
        by simpa [enter, Tally.put, h] using hle⟩
  · rintro ⟨g, k, hg, hpath, hpos, hle⟩
    have h : ¬(g = f ∧ id'.typ = id.typ) := by
      rintro ⟨rfl, -⟩
      cases (hf _).symm.trans hg
    exact ⟨g, k, by simpa [enter, h] using hg, by simpa [enter, Tally.put, h] using hpath, hpos,
      by simpa [enter, Tally.put, h] using hle⟩

/-- A sequence may begin at an id that was given out, if no other one does. -/
theorem Sound.enter (h : L.Sound) (hf : ∀ t, L.document? f t = none) (hid : L.Allotted d id)
    (hne : ∀ g, L.document? g id.typ = some d → (L.tally g id.typ).outer ≠ id.path) :
    (L.enter f d id).Sound := by
  have hcases : ∀ {d' t g}, (L.enter f d id).document? g t = some d' →
      (g = f ∧ t = id.typ ∧ d' = d ∧ ((L.enter f d id).tally g t).outer = id.path) ∨
      (L.document? g t = some d' ∧ ((L.enter f d id).tally g t).outer = (L.tally g t).outer) := by
    intro d' t g hg
    by_cases heq : g = f ∧ t = id.typ
    · refine .inl ⟨heq.1, heq.2, ?_, by simp [Ledger.enter, Tally.put, heq, Ordinals.below]⟩
      simpa [Ledger.enter, heq, eq_comm] using hg
    · exact .inr ⟨by simpa [Ledger.enter, heq] using hg,
        by simp [Ledger.enter, Tally.put, heq]⟩
  constructor
  case unique =>
    intro d' t g g' hg hg' houter
    obtain ⟨rfl, rfl, rfl, ho⟩ | ⟨hold, ho⟩ := hcases hg <;>
      obtain ⟨rfl, ht', hd', ho'⟩ | ⟨hold', ho'⟩ := hcases hg'
    · rfl
    · exact (hne g' hold' (by rw [← ho', ← houter, ho])).elim
    · subst ht' hd'
      exact (hne g hold (by rw [← ho, houter, ho'])).elim
    · exact h.unique d' t g g' hold hold' (by rw [← ho, houter, ho'])
  case inside =>
    intro d' t g hg
    rw [allotted_enter_iff hf]
    obtain ⟨rfl, rfl, rfl, ho⟩ | ⟨hold, ho⟩ := hcases hg
    · rw [ho]
      exact .inr hid
    · rw [ho]
      exact h.inside d' t g hold

end Ledger

namespace Resolution

/-- The document in which a frame counts a label type. -/
def countedIn? (s : Resolution) (f : FrameId) (typ : String) : Option String :=
  (s.frame? f).bind fun frame => if frame.kind.counts typ then some frame.document else none

/-- What the frames count. -/
def ledger (s : Resolution) : Ledger := ⟨s.countedIn?, s.tally⟩

variable {s s' : Resolution} {f g : FrameId} {frame : Frame} {typ d : String}

theorem countedIn?_of_frame? (hf : s.frame? f = some frame) (hk : frame.kind.counts typ = true) :
    s.countedIn? f typ = some frame.document := by
  rw [countedIn?, hf, Option.bind_some, if_pos hk]

theorem countedIn?_freshFrame (typ : String) : s.countedIn? s.freshFrame typ = none := by
  simp [countedIn?, frame?, freshFrame]

theorem ledger_congr (h : s'.frames = s.frames) : s'.ledger = s.ledger := by
  have hframe : s'.frame? = s.frame? := funext fun f => by rw [frame?, frame?, h]
  unfold ledger countedIn? tally
  rw [hframe]

/-- A new frame that counts nothing. -/
theorem ledger_push (hk : ∀ typ, frame.kind.counts typ = false) :
    ledger { s with frames := s.frames.push frame } = s.ledger := by
  have hcounted : countedIn? { s with frames := s.frames.push frame } = s.countedIn? := by
    funext g t
    unfold countedIn?
    rw [frame?_push]
    split
    next heq =>
      rw [heq, Option.bind_some, hk t]
      exact (countedIn?_freshFrame t).symm
    · rfl
  have hordinals : ∀ typ, frame.kind.ordinals typ = {} := by
    intro t
    have hkt := hk t
    cases hkind : frame.kind with
    | document ids => simp [hkind, FrameKind.counts] at hkt
    | subRange t' ids range =>
      rw [hkind] at hkt
      have hne : t' ≠ t := by simpa [FrameKind.counts] using hkt
      exact if_neg (Ne.symm hne)
    | block | static => rfl
  rw [ledger, hcounted, tally_push hordinals, ledger]

/-- A new frame inside a labeled node. -/
theorem ledger_push_subRange {id : LabelId} (hk : frame.kind = .subRange id.typ (.below id) none) :
    ledger { s with frames := s.frames.push frame } =
      s.ledger.enter s.freshFrame frame.document id := by
  rw [ledger, tally_push_subRange hk, Ledger.enter]
  congr 1
  funext g t
  change countedIn? _ g t = if g = s.freshFrame ∧ t = id.typ then _ else s.countedIn? g t
  by_cases hg : g = s.freshFrame
  · subst hg
    have hnew : frame? { s with frames := s.frames.push frame } s.freshFrame = some frame :=
      (frame?_push ..).trans (if_pos rfl)
    rw [countedIn?_freshFrame, countedIn?, hnew, Option.bind_some, hk]
    simp [FrameKind.counts, eq_comm]
  · unfold countedIn?
    rw [frame?_push, if_neg hg, if_neg fun h => hg h.1]

/-! ## Frames that count -/

/-- Every label type is counted in a frame around, in the same document. -/
def Accounted (s : Resolution) (f : FrameId) : Prop :=
  ∀ typ, ∃ g, s.owner? f typ = some g ∧ s.countedIn? g typ = some (s.documentOf f)

/-- The frame at the top of a document counts all label types. -/
theorem TopFrame.accounted {info : DocumentInfo} (h : s.TopFrame d info) (ho : s.Ordered) :
    s.Accounted info.frame := by
  obtain ⟨frame, hf, -, -, -, hk⟩ := h.frame
  intro typ
  have hcounts : frame.kind.counts typ = true := by
    obtain ⟨ids, hids⟩ := hk.exists_ids
    rw [hids]
    rfl
  refine ⟨info.frame, ?_, ?_⟩
  · rw [owner?, countingFrame?_eq ho hf, if_pos hcounts]
    rfl
  · rw [countedIn?_of_frame? hf hcounts, documentOf_eq hf]

theorem Accounted.of_alike (h : s.Accounted f) (ho : s'.Ordered)
    (ha : ∀ f frame, s.frame? f = some frame → ∃ frame', s'.frame? f = some frame' ∧
      frame.Alike frame') (hf : s.frame? f = some frame) : s'.Accounted f := by
  intro typ
  obtain ⟨g, hg, hcounted⟩ := h typ
  refine ⟨g, (owner?_of_alike ho ha hf typ).trans hg, ?_⟩
  obtain ⟨owner, howner, hcounts⟩ := Option.bind_eq_some_iff.1 hcounted
  obtain ⟨owner', howner', -, hdoc, -, hk⟩ := ha g owner howner
  rw [countedIn?, howner', Option.bind_some, hk.counts_eq, hdoc, hcounts,
    documentOf_of_alike ha hf]

/-- A frame in another one of its document counts itself, or is counted outside. -/
theorem Accounted.inside (h : s.Accounted f) (ho : s.Ordered) (hg : s.frame? g = some frame)
    (hp : frame.parent = some f) (hd : frame.document = s.documentOf f) : s.Accounted g := by
  intro typ
  rw [owner?, countingFrame?_eq ho hg, documentOf_eq hg]
  by_cases hcounts : frame.kind.counts typ
  · rw [if_pos hcounts]
    exact ⟨g, rfl, countedIn?_of_frame? hg hcounts⟩
  · rw [if_neg hcounts, hp, hd]
    exact h typ

end Resolution

namespace Run

/-- Asking for the next id of a label type goes on in the ledger. -/
theorem nextId_ledger {s : Resolution} {f g : FrameId} {typ : String}
    (hg : s.owner? f typ = some g) : After True (nextId f typ) s fun ids s' =>
      ids = (s.ledger.tally g typ).next ∧ s'.ledger = s.ledger.next g typ := by
  refine After.mono (Q := fun ids s' => (ids = s.tally.next (s.owner? f typ) typ ∧
    s'.tally = s.tally.advance (s.owner? f typ) typ) ∧ s'.countedIn? = s.countedIn?)
    ((nextId_spec f typ).and ?_) ?_
  · unfold nextId
    rw [After.bind_iff, After.get_iff]
    dsimp only
    have hkind : ∀ owner frame kind, s.frame? owner = some frame →
        (∀ t, FrameKind.counts t kind = FrameKind.counts t frame.kind) →
        (s.modifyKind owner fun _ => kind).countedIn? = s.countedIn? := by
      intro owner frame kind howner hcounts
      funext h t
      unfold countedIn?
      rw [frame?_modifyKind]
      split
      next heq =>
        rw [heq, howner, Option.map_some, Option.bind_some, Option.bind_some, hcounts]
      · rfl
    split
    next owner parent document scope ids h =>
      rw [After.bind_iff, After.set_iff]
      exact hkind owner _ _ (countingFrame?_eq_some h).1 fun _ => rfl
    next owner parent document scope t ids range h =>
      rw [After.bind_iff, After.set_iff]
      exact hkind owner _ _ (countingFrame?_eq_some h).1 fun _ => rfl
    · exact rfl
  · rintro ids s' ⟨⟨hids, htally⟩, hcounted⟩
    rw [hg] at hids htally
    refine ⟨hids, ?_⟩
    rw [ledger, hcounted, htally]
    rfl

end Run

end Folio
