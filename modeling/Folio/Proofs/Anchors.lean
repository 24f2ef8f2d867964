import Folio.Proofs.FoundTexts
import Folio.Proofs.Queries

/-!
# Anchors lead back to their nodes

The index of all documents looks at absolute tags before it takes them, but a relative one it puts
in front of whatever is there. Still no labeled node loses an anchor to a later one
(`Registry.Traced`). For what comes out of the scope of a document was new there, and this scope
knows all relative tags of its document, since it agrees with the index (`Registry.Synced`). So
every anchor that is reported for a node leads to it in the end, and has done so ever since it was
registered (`Collection.Gathered.anchors_lead_back`).
-/

namespace Folio

namespace Registry

variable {r r' : Registry}

/-- The index leads from each anchor of a labeled node to the node. -/
def Traced (r : Registry) : Prop :=
  ∀ i e, r.entryAt? i = some e → ∀ a ∈ e.anchors,
    r.address? (linkOf e.document a) = some ⟨e.document, a, .entry i⟩

theorem Traced.empty (rootType : String) : Traced { rootType } := by
  intro i e h
  simp [entryAt?] at h

/-! ## Operations keep anchors -/

theorem Aside.entryAt?_eq_some (ha : Aside r r') {i : EntryId} {e' : Entry}
    (hi : r'.entryAt? i = some e') : ∃ e, r.entryAt? i = some e ∧ e'.bare = e.bare := by
  have heq := ha.entry i
  rw [hi, Option.map_some] at heq
  obtain ⟨e, he, hb⟩ := Option.map_eq_some_iff.1 heq.symm
  exact ⟨e, he, hb.symm⟩

theorem Aside.traced (ha : Aside r r') (h : r.Traced) : r'.Traced := by
  intro i e' hi a hmem
  obtain ⟨e, he, hb⟩ := ha.entryAt?_eq_some hi
  rw [Entry.anchors_eq_of_bare hb] at hmem
  rw [address?, ha.addresses, Entry.document_eq_of_bare hb]
  exact h i e he a hmem

/-- The document that is added has no labeled nodes, and whole documents are no anchors of nodes. -/
theorem Documented.traced {document : String} {top : Scope} (hd : Documented r r' document top)
    (he : r'.entries = r.entries) (hs : r.Synced) (hnew : r.documentScope? document = none)
    (h : r.Traced) : r'.Traced := by
  intro i e hi a ha
  rw [entryAt?, he] at hi
  have haddress := h i e hi a ha
  rw [hd.address, if_neg, haddress]
  intro hl
  rw [hl] at haddress
  have hsome := hs.place document "" _ haddress
  rw [hnew] at hsome
  cases hsome

/-- What a labeled node is registered under was no anchor of another one. -/
theorem Entered.address?_ne {scopes : List ScopeId} {e : Entry} {id : EntryId} {out : List String}
    (he : Entered r r' scopes e id out) (hs : r.Synced) {τ : ScopeId}
    (hl : LeadsUp r scopes e.document τ) {tag : String} (ht : tag ∈ out) {d a : String}
    {i : EntryId} : r.address? (linkOf e.document tag) ≠ some ⟨d, a, .entry i⟩ := by
  intro haddress
  unfold linkOf at haddress
  split at haddress
  next habs => exact he.fresh tag ht habs _ i haddress rfl
  next hrel =>
    obtain ⟨top, hτ, hp, hdoc⟩ := hl.top
    obtain ⟨-, hname, hdτ⟩ := hs.top τ top hτ hp
    obtain ⟨-, tags, -, -, -, hfree, -, hlast⟩ :=
      he.scope τ (List.mem_of_getLast? hl.last) top hτ
    obtain rfl := hlast hl.last hname
    -- the scope of the document has not known the tag, so the index has not either
    have hnone := hs.anchor _ τ top tag hdτ hτ (he.ne_empty tag ht) (Bool.eq_false_iff.2 hrel)
    rw [hfree tag ht, hdoc, haddress] at hnone
    cases hnone

theorem Entered.traced {scopes : List ScopeId} {e : Entry} {id : EntryId} {out : List String}
    (he : Entered r r' scopes e id out) (hs : r.Synced) {τ : ScopeId}
    (hl : LeadsUp r scopes e.document τ) (h : r.Traced) : r'.Traced := by
  intro i e' hi a ha
  rw [he.entry] at hi
  rw [he.address]
  split at hi
  next hid =>
    subst hid
    cases hi
    rw [if_pos (List.mem_map.2 ⟨a, ha, rfl⟩), anchor_linkOf]
  · have haddress := h i e' hi a ha
    rw [if_neg, haddress]
    intro hmem
    obtain ⟨tag, ht, hlink⟩ := List.mem_map.1 hmem
    exact he.address?_ne hs hl ht (hlink ▸ haddress)

theorem Move.traced (hm : Move r r') (hs : r.Synced) (h : r.Traced) : r'.Traced := by
  cases hm with
  | @document document _ hnew =>
    obtain ⟨top, hd⟩ := r.addDocument_documented document
    exact hd.traced rfl hs hnew h
  | scope name _ _ => exact h
  | name hn => exact (Aside.nextName hn).traced h
  | child hc => exact (Aside.addChild hc).traced h
  | @entry σ sc e tags explicit id _ hσ hd htags hok =>
    obtain ⟨τ, hl⟩ := hs.leadsUp hσ
    obtain ⟨out, he⟩ := (registerEntry_entered explicit hl.nodup htags).of_ok hok
    exact he.traced hs (hd ▸ hl) h
  | tag hok => exact ((registerTag_aside _ _ _ _ _ r).of_ok hok).traced h
  | block hs hok => exact ((registerBlock_aside _ _ hs).of_ok hok).traced h
  | value binding => exact (Aside.addValue r binding).traced h
  | setValue σ name value => exact (Aside.setValue r σ name value).traced h
  | found e hf => exact (Aside.found e hf).traced h

theorem Reached.traced (h : r.Reached) : r.Traced := by
  obtain ⟨rootType, hm⟩ := h
  induction hm with
  | refl => exact .empty rootType
  | tail hms hm ih => exact hm.traced (Reached.synced ⟨rootType, hms⟩) ih

theorem Move.exists_entry (hm : Move r r') (hs : r.Synced) {i : EntryId} {e : Entry}
    (hi : r.entryAt? i = some e) : ∃ e', r'.entryAt? i = some e' ∧ e'.bare = e.bare := by
  have haside : Aside r r' → ∃ e', r'.entryAt? i = some e' ∧ e'.bare = e.bare := fun ha => by
    have heq := ha.entry i
    rw [hi, Option.map_some] at heq
    exact Option.map_eq_some_iff.1 heq
  cases hm with
  | document _ _ => exact ⟨e, hi, rfl⟩
  | scope name _ _ => exact ⟨e, hi, rfl⟩
  | name hn => exact haside (.nextName hn)
  | child hc => exact haside (.addChild hc)
  | @entry σ sc e' tags explicit id _ hσ hd htags hok =>
    obtain ⟨τ, hl⟩ := hs.leadsUp hσ
    obtain ⟨out, he⟩ := (registerEntry_entered explicit hl.nodup htags).of_ok hok
    refine ⟨e, ?_, rfl⟩
    rw [he.entry, if_neg, hi]
    rintro rfl
    cases he.fresh_id.symm.trans hi
  | tag hok => exact haside ((registerTag_aside _ _ _ _ _ r).of_ok hok)
  | block hs hok => exact haside ((registerBlock_aside _ _ hs).of_ok hok)
  | value binding => exact haside (.addValue r binding)
  | setValue σ name value => exact haside (.setValue r σ name value)
  | found e hf => exact haside (.found e hf)

/-- The anchors that a labeled node once has stay its own, whatever is registered after it. -/
theorem Reached.address?_kept (h : r.Reached) (hm : Moves r r') {i : EntryId} {e : Entry}
    (hi : r.entryAt? i = some e) {a : String} (ha : a ∈ e.anchors) :
    r'.address? (linkOf e.document a) = some ⟨e.document, a, .entry i⟩ := by
  obtain ⟨e', hi', hb⟩ : ∃ e', r'.entryAt? i = some e' ∧ e'.bare = e.bare := by
    induction hm with
    | refl => exact ⟨e, hi, rfl⟩
    | tail hms hm ih =>
      obtain ⟨e', hi', hb⟩ := ih
      obtain ⟨e'', hi'', hb'⟩ := hm.exists_entry (h.moves hms).synced hi'
      exact ⟨e'', hi'', hb'.trans hb⟩
  rw [← Entry.document_eq_of_bare hb]
  exact (h.moves hm).traced i e' hi' a (Entry.anchors_eq_of_bare hb ▸ ha)

end Registry

/-! ## Reports -/

namespace Collection

variable {c : Collection} {s : Resolution}

theorem Gathered.traced (h : c.Gathered) (hs : c.resolve = .ok () s) : s.registry.Traced := by
  obtain ⟨⟨r, hreached, haside⟩, -⟩ := h.registered hs
  exact haside.traced hreached.traced

/-- The reports on a document are those on its labeled nodes, and every anchor that is listed for a
node leads to this node. No registration after that of a node has taken over one of its anchors. -/
theorem Gathered.anchors_lead_back (h : c.Gathered) (hs : c.resolve = .ok () s) (d : String) :
    (∀ report ∈ s.labels d, ∃ i e, s.registry.entryAt? i = some e ∧ e.document = d ∧
      report = s.labelReport e) ∧
    (∀ i e, s.registry.entryAt? i = some e → e.document = d → s.labelReport e ∈ s.labels d ∧
      ∀ a ∈ (s.labelReport e).anchors,
        s.registry.address? (if Path.isAbs a then .tag a else .place d a) =
          some ⟨d, a, .entry i⟩) ∧
    ∃ r : Registry, r.Reached ∧ r.Aside s.registry ∧
      ∀ r₁ r₂ : Registry, r₁.Reached → Registry.Moves r₁ r₂ → Registry.Moves r₂ r →
        ∀ i e, r₁.entryAt? i = some e → ∀ a ∈ e.anchors,
          r₂.address? (Registry.linkOf e.document a) = some ⟨e.document, a, .entry i⟩ := by
  refine ⟨fun report hr => ?_, ?_, ?_⟩
  · obtain ⟨e, he, rfl⟩ := List.mem_map.1 hr
    obtain ⟨hmem, hd⟩ := List.mem_filter.1 he
    obtain ⟨i, hi⟩ := List.mem_iff_getElem?.1 hmem
    exact ⟨⟨i⟩, e, by simpa [Registry.entryAt?] using hi, by simpa using hd, rfl⟩
  · rintro i e hi rfl
    refine ⟨List.mem_map_of_mem (List.mem_filter.2 ⟨?_, by simp⟩), h.traced hs i e hi⟩
    exact List.mem_of_getElem? (by simpa [Registry.entryAt?] using hi)
  · obtain ⟨⟨r, hreached, haside⟩, -⟩ := h.registered hs
    exact ⟨r, hreached, haside, fun r₁ r₂ h₁ h₁₂ _ i e hi a ha => h₁.address?_kept h₁₂ hi ha⟩

theorem single_gathered {path : String} (habs : Path.isAbs path = true)
    (description : Description) : (single path description).Gathered := by
  unfold single
  cases hd : Document.ofDescription? path description with
  | error e => exact .start {}
  | ok d =>
    have hpath : d.path = path := (Document.numbered_of_ofDescription? hd).1
    refine .add path description (.start {}) hd ?_
    simp [add, hpath, habs, Table.put, Except.toOption]

/-- Sections with a relative and with an absolute tag in an expansion, and one behind it. -/
def taggedSections : Collection := single "/doc" {
  blocks := [{
    tag := "demo", nodes := [.heading (some "fig") "A" [], .heading (some "/main") "B" []] }]
  nodes := [.expansion "demo" none [], .heading (some "fig") "C" []] }

/-- The section in the expansion is found under the name that it has outside, and the last one under
its own. -/
theorem anchors_lead_back_taggedSections : ∃ s, taggedSections.resolve = .ok () s ∧
    s.registry.address? (.place "/doc" "demo-1/fig") = some ⟨"/doc", "demo-1/fig", .entry ⟨0⟩⟩ ∧
    s.registry.address? (.tag "/main") = some ⟨"/doc", "/main", .entry ⟨1⟩⟩ ∧
    s.registry.address? (.place "/doc" "fig") = some ⟨"/doc", "fig", .entry ⟨2⟩⟩ := by
  obtain ⟨s, hs, h₀, h₁, h₂⟩ := taggedSections.exists_resolve_and
    (P := fun s => (s.registry.entryAt? ⟨0⟩).map (fun e => (e.document, e.anchors)) =
        some ("/doc", ["demo-1/fig", "section-1"]) ∧
      (s.registry.entryAt? ⟨1⟩).map (fun e => (e.document, e.anchors)) =
        some ("/doc", ["/main", "section-2"]) ∧
      (s.registry.entryAt? ⟨2⟩).map (fun e => (e.document, e.anchors)) =
        some ("/doc", ["fig", "section-3"])) (by decide +kernel)
  have hg : taggedSections.Gathered := single_gathered (by decide +kernel) _
  have hlead : ∀ i anchors a, (s.registry.entryAt? i).map (fun e => (e.document, e.anchors)) =
      some ("/doc", anchors) → a ∈ anchors →
      s.registry.address? (if Path.isAbs a then .tag a else .place "/doc" a) =
        some ⟨"/doc", a, .entry i⟩ := by
    intro i anchors a hi ha
    obtain ⟨e, he, heq⟩ := Option.map_eq_some_iff.1 hi
    obtain ⟨hdoc, rfl⟩ := Prod.mk.inj heq
    exact ((hg.anchors_lead_back hs "/doc").2.1 i e he hdoc).2 a ha
  exact ⟨s, hs, hlead _ _ "demo-1/fig" h₀ (by simp), hlead _ _ "/main" h₁ (by simp),
    hlead _ _ "fig" h₂ (by simp)⟩

end Collection

end Folio
