import Folio.Proofs.Resolution.Orderly

/-!
# Every labeled node has a label, unless one was cut off

A resolution that succeeds has claimed a slot for every labeled node. A label is bound to the slot
exactly if it hangs on the range of a root (`Resolution.Reached`). A section reference at the top of
an embedded document claims behind a slot that was handed over, and that cuts off what followed the
slot before (`not_forall_labeled`). Without such references nothing is cut off, and every slot gets
its label.
-/

namespace Folio

open Resolution

/-- Every labeled node has a slot, and a label is bound to it if it hangs on a range of a root. That
is the case for all slots if the section references of embedded documents stand inside sections. -/
theorem Collection.Described.labeled_spec {c : Collection} {s : Resolution} (h : c.Described)
    (hs : c.resolve = .ok () s) :
    (∀ e entry, s.registry.entryAt? e = some entry → ∃ q t, entry.slot = some q ∧
      s.numbering.layout.slot? q = some t ∧ (t.label.isSome ↔ s.Reached q)) ∧
    (s.InnerReferences → ∀ q t, s.numbering.layout.slot? q = some t → t.label.isSome) := by
  obtain ⟨W, s₀, s₁, s₂, hr, horderly⟩ := h.resolve_spec
    (J := fun _ s₀ t => s₀.InnerReferences → s₀.Orderly t)
    (fun _ _ hp => (Run.claimAll_spec hp (hp.underway.and_imp hp.orderly)).mono
      fun _ _ ⟨⟨_, _, h⟩, _⟩ => h) hs
  refine ⟨fun e entry he => ?_, fun hinner q t ht => ?_⟩
  · obtain ⟨q, t, hq, ht⟩ := hr.exists_slot he
    exact ⟨q, t, hq, ht, hr.isSome_label_iff ht⟩
  · have hkeeps : s₁.Keeps s := hr.bound.keeps.trans hr.settled.keeps
    have ho := horderly (hr.underway.progress.innerReferences hkeeps
      (by rw [hr.settled.same, hr.bound.same]) (by rw [hr.settled.same, hr.bound.same]) hinner)
    exact hr.isSome_label ho ht

namespace Collection

/-- A resolution that succeeds leaves a state. -/
theorem exists_resolve {c : Collection} (h : c.resolution?.isOk = true) :
    ∃ s, c.resolve = .ok () s := by
  unfold resolution? at h
  cases hs : c.resolve with
  | ok _ s => exact ⟨s, rfl⟩
  | error e s => simp [hs, Except.isOk, Except.toBool] at h

/-- A resolution that succeeds leaves a state that passes a check. -/
theorem exists_resolve_and {c : Collection} {P : Resolution → Prop} [DecidablePred P]
    (h : (match c.resolve with | .ok _ s => decide (P s) | .error _ _ => false) = true) :
    ∃ s, c.resolve = .ok () s ∧ P s := by
  cases hs : c.resolve with
  | ok _ s => exact ⟨s, rfl, by simpa [hs] using h⟩
  | error e s => simp [hs] at h

/-- A section of a document under its number. -/
def sectionAt (path : String) (line node depth : Nat) (title : String) (body : List Node) : Node :=
  .labeled {
    key := ⟨path, node⟩, location := ⟨path, line, depth⟩, typ := none, tag := none
    title := ⟨⟨path, line, depth⟩, [.text title]⟩, nested := none } body

/-- A document without declarations and blocks. -/
def plainDocument (path : String) (nodes : List Node) : Document where
  path := path
  template := false
  settings := []
  blocks := []
  nodes := nodes

/-- The document `/b`, which is a section, is embedded behind a section of `/a`. -/
def innerReference : Collection where
  documents :=
    [("/a", plainDocument "/a" [sectionAt "/a" 1 1 0 "X" [], .embedding ⟨"/a", 3⟩ ⟨"/a", 2, 0⟩ "b"]),
    ("/b", plainDocument "/b" [sectionAt "/b" 1 1 0 "Y" []])]

theorem innerReference_described : innerReference.Described where
  sorted := by decide +kernel
  made path d hd := by
    simp only [innerReference, List.mem_cons, Prod.mk.injEq, List.not_mem_nil, or_false] at hd
    rcases hd with ⟨rfl, rfl⟩ | ⟨rfl, rfl⟩
    · exact ⟨{ nodes := [.heading none "X" [], .embedding "b"] }, rfl⟩
    · exact ⟨{ nodes := [.heading none "Y" []] }, rfl⟩

end Collection

/-- Both sections have labels. -/
theorem innerReference_labeled : ∃ s, Collection.innerReference.resolve = .ok () s ∧
    ∀ q t, s.numbering.layout.slot? q = some t → t.label.isSome := by
  obtain ⟨s, hs⟩ := Collection.innerReference.exists_resolve (by decide +kernel)
  have hd := Collection.innerReference_described
  obtain ⟨W, s₀, s₁, s₂, hr, -⟩ := hd.resolve_spec (J := fun _ _ _ => True)
    (fun _ _ _ => After.trivial fun _ _ _ => trivial) hs
  refine ⟨s, hs, (hd.labeled_spec hs).2 fun d info vs hinfo hby hw v hv hrequest => ?_⟩
  have hmem := hr.document_mem hinfo
  simp only [Collection.innerReference, List.mem_cons, Prod.mk.injEq, List.not_mem_nil,
    or_false] at hmem
  rcases hmem with ⟨rfl, -⟩ | ⟨rfl, hdocument⟩
  · have hroot : (match Collection.innerReference.resolve with
        | .ok _ s => (s.info? "/a").map fun info => info.embeddedBy.isSome
        | .error _ _ => none) = some false := by decide +kernel
    rw [hs] at hroot
    simp [hinfo, hby] at hroot
  · rw [hdocument] at hw
    cases hw with
    | labeled _ _ _ _ _ hbody hrest =>
      cases hbody
      cases hrest
      cases List.mem_singleton.1 hv
      simp [Visit.request?] at hrequest

/-! ## A section reference that cuts off -/

namespace Collection

/-- The document `/b` is embedded before a section of `/a`, and embeds `/c` at its top. -/
def outerReference : Collection where
  documents :=
    [("/a", plainDocument "/a" [.embedding ⟨"/a", 1⟩ ⟨"/a", 1, 0⟩ "b", sectionAt "/a" 2 2 0 "X" []]),
    ("/b", plainDocument "/b" [.embedding ⟨"/b", 1⟩ ⟨"/b", 1, 0⟩ "c"]),
    ("/c", plainDocument "/c" [sectionAt "/c" 1 1 0 "Z" []])]

theorem outerReference_described : outerReference.Described where
  sorted := by decide +kernel
  made path d hd := by
    simp only [outerReference, List.mem_cons, Prod.mk.injEq, List.not_mem_nil, or_false] at hd
    rcases hd with ⟨rfl, rfl⟩ | ⟨rfl, rfl⟩ | ⟨rfl, rfl⟩
    · exact ⟨{ nodes := [.embedding "b", .heading none "X" []] }, rfl⟩
    · exact ⟨{ nodes := [.embedding "c"] }, rfl⟩
    · exact ⟨{ nodes := [.heading none "Z" []] }, rfl⟩

end Collection

/-- The section of `/a` keeps its slot, but no label is bound to it. -/
theorem not_forall_labeled : ¬∀ (c : Collection) (s : Resolution), c.Described →
    c.resolve = .ok () s → ∀ e entry, s.registry.entryAt? e = some entry →
      (s.labelOf? entry).isSome := by
  intro h
  obtain ⟨s, hs⟩ := Collection.outerReference.exists_resolve (by decide +kernel)
  have hall := h _ s Collection.outerReference_described hs
  have hlabel : (match Collection.outerReference.resolve with
      | .ok _ s => (s.registry.entryAt? ⟨0⟩).map s.labelOf?
      | .error _ _ => none) = some none := by decide +kernel
  rw [hs] at hlabel
  obtain ⟨entry, he, hnone⟩ := Option.map_eq_some_iff.1 hlabel
  simpa [hnone] using hall ⟨0⟩ entry he

end Folio
