import Folio.Proofs.CallByName
import Folio.Proofs.Queries

/-!
# Documents that have nothing to do with each other

A document is unrelated to the others if it lends nothing to them and they do not lead to it
(`Collection.Unrelated`). It may still use what they lend. A default argument is handled in the scope
in which its block is defined, and what is kept for its parts is kept there, for all that use the
block. But a relative path in it is read from the document of the user. So two users can disagree
about where it leads, and the later one prevails for both (`Collection.not_forall_unrelated`).
-/

namespace Folio

open Resolution

/-- A key between two others is put between them. -/
theorem Table.put_between {α : Type} {key : String} {pre post : Table α}
    (hpre : ∀ k ∈ pre.keys, k < key) (hpost : ∀ k ∈ post.keys, key < k) (x : α) :
    (pre ++ post).put key x = pre ++ (key, x) :: post := by
  induction pre with
  | nil =>
    cases post with
    | nil => rfl
    | cons e post =>
      obtain ⟨k, y⟩ := e
      have hk : key < k := hpost k (by simp [keys])
      rw [List.nil_append, put, if_neg (fun h => String.lt_irrefl _ (h ▸ hk)), if_pos hk,
        List.nil_append]
  | cons e pre ih =>
    obtain ⟨k, y⟩ := e
    have hk : k < key := hpre k (by simp [keys])
    rw [List.cons_append, put, if_neg (fun h => String.lt_irrefl _ (h ▸ hk)),
      if_neg (String.lt_asymm hk), ih fun k hk => hpre k (List.mem_cons_of_mem _ hk),
      List.cons_append]

/-- Is the part no term, and does it lead from the given documents to others than the one at `path`
only? -/
def Part.avoids (path : String) (bases : List String) : Part → Bool
  | .reference _ _ written => bases.all fun base =>
    match Link.read? true written with
    | .ok link =>
      match link.abs? base false with
      | .ok absolute => absolute.path ≠ path
      | .error _ => true
    | .error _ => true
  | .term _ => false
  | _ => true

namespace Collection

/-- The document defines no blocks, embeds no document and has no absolute tags, and no reference of
the other documents leads to it. Embeddings and block references cannot lead to it if the others can
be resolved without it. -/
structure Unrelated (c : Collection) (d : Document) (s : Resolution) : Prop where
  blocks : d.blocks = []
  requests : ∀ info, s.info? d.path = some info → info.requests = []
  anchors : ∀ report ∈ s.labels d.path, ∀ a ∈ report.anchors, Path.isAbs a = false
  tags : ∀ typ tag e sc, s.registry.index.tags.lookup (typ, tag) = some e →
    s.registry.scope? e.scope = some sc → sc.document = d.path → ∃ t, tag = d.path ++ "#" ++ t
  references : ∀ t, c.HasText t → ∀ key aspect written, .reference key aspect written ∈ t.parts →
    ∀ base ∈ c.documents.keys, ∀ link absolute, Link.read? true written = .ok link →
      link.abs? base false = .ok absolute → absolute.path ≠ d.path
  terms : ∀ t, c.HasText t → ∀ tag, .term tag ∈ t.parts → ∀ rest, tag ≠ d.path ++ "#" ++ rest

/-! ## A library that is used twice -/

section

variable {ds : List (String × Description)}

theorem keys_written_subset : (written ds).documents.keys ⊆ ds.map Prod.fst := by
  intro path hpath
  obtain ⟨⟨path, d⟩, hd, rfl⟩ := List.mem_map.1 hpath
  obtain ⟨⟨path', description⟩, hp, hmade⟩ := List.mem_filterMap.1 hd
  obtain ⟨d', -, heq⟩ := Option.map_eq_some_iff.1 hmade
  cases heq
  exact List.mem_map_of_mem hp

/-- A document with a path between the other ones is added between them. -/
theorem add_written (pre post : List (String × Description)) {path : String}
    {description : Description} {d : Document} (habs : Path.isAbs path = true)
    (hsorted : ((pre ++ (path, description) :: post).map Prod.fst).Pairwise (· < ·))
    (hmade : Document.ofDescription? path description = .ok d) :
    (written (pre ++ post)).add d = .ok (written (pre ++ (path, description) :: post)) := by
  obtain rfl := (Document.numbered_of_ofDescription? hmade).1
  rw [List.map_append, List.map_cons, List.pairwise_append, List.pairwise_cons] at hsorted
  obtain ⟨-, ⟨hafter, -⟩, hbefore⟩ := hsorted
  have hdocuments : (written (pre ++ post)).documents =
      (written pre).documents ++ (written post).documents := List.filterMap_append
  have hpre : ∀ k ∈ (written pre).documents.keys, k < d.path := fun k hk =>
    hbefore k (keys_written_subset hk) d.path (by simp)
  have hpost : ∀ k ∈ (written post).documents.keys, d.path < k := fun k hk =>
    hafter k (keys_written_subset hk)
  have hnew : (written (pre ++ post)).documents.lookup d.path = none := by
    refine Option.eq_none_iff_forall_ne_some.2 fun e he => ?_
    have hmem := Table.mem_keys_iff.2 ⟨e, he⟩
    rw [hdocuments, Table.keys, List.map_append, List.mem_append] at hmem
    rcases hmem with hmem | hmem
    · exact String.lt_irrefl _ (hpre _ hmem)
    · exact String.lt_irrefl _ (hpost _ hmem)
  unfold add
  rw [hnew, if_neg (by simp [habs]), if_neg (by simp), hdocuments, Table.put_between hpre hpost]
  simp [written, hmade, Except.toOption]

/-- Documents that are written under absolute paths can be added one after the other. -/
theorem written_gathered (hsorted : (ds.map Prod.fst).Pairwise (· < ·))
    (habs : ∀ path ∈ ds.map Prod.fst, Path.isAbs path = true) : (written ds).Gathered := by
  induction ds using List.reverseRecOn with
  | nil => exact .start {}
  | append_singleton ds p ih =>
    obtain ⟨path, description⟩ := p
    have hc : (written ds).Gathered := by
      refine ih ?_ fun path hpath => habs path ?_
      · rw [List.map_append] at hsorted
        exact (List.pairwise_append.1 hsorted).1
      · rw [List.map_append]
        exact List.mem_append_left _ hpath
    cases hmade : Document.ofDescription? path description with
    | error e =>
      have heq : written (ds ++ [(path, description)]) = written ds := by
        simp [written, hmade, Except.toOption]
      rwa [heq]
    | ok d =>
      have hadd := add_written ds [] (habs path (by simp)) hsorted hmade
      rw [List.append_nil] at hadd
      exact .add path description hc hmade hadd

end

/-- The block of a library shows the title of the document `x` that lies beside its user, which is
`/a/u`. -/
def oneUser : List (String × Description) := [
  ("/a/u", { nodes := [.expansion "/lib#b" none []] }),
  ("/a/x", { nodes := [.heading none "AX" []] }),
  ("/lib", { blocks := [{
    tag := "b", parameters := [⟨"p", some "\x7b\x7btitle x#\x7d\x7d"⟩]
    nodes := [.text "\x7b\x7bvalue p\x7d\x7d"] }] })]

/-- A second user of the block. -/
def otherUser : String × Description := ("/z/d", { nodes := [.expansion "/lib#b" none []] })

/-- The document `x` beside the second user. -/
def otherTitle : List (String × Description) := [("/z/x", { nodes := [.heading none "ZX" []] })]

theorem Unrelated.of_avoids {c : Collection} {d : Document} {s : Resolution} {bases : List String}
    (hblocks : d.blocks = []) (hkeys : c.documents.keys = bases)
    (htexts : ∀ p ∈ c.documents, ∀ t ∈ p.2.texts, ∀ part ∈ t.parts,
      part.avoids d.path bases = true)
    (hrequests : (s.info? d.path).map (fun info => info.requests) = some [])
    (hlabels : s.labels d.path = []) (htags : s.registry.index.tags = []) :
    c.Unrelated d s where
  blocks := hblocks
  requests info hinfo := by simpa [hinfo] using hrequests
  anchors report hreport := by simp [hlabels] at hreport
  tags typ tag e sc he := by simp [htags] at he
  references t ht key aspect written hpart base hbase link absolute hread habs := by
    obtain ⟨path, e, he, ht⟩ := ht
    have hall := htexts (path, e) he t ht _ hpart
    simp only [Part.avoids, hread, List.all_eq_true] at hall
    simpa [habs] using hall base (hkeys ▸ hbase)
  terms t ht tag hpart := by
    obtain ⟨path, e, he, ht⟩ := ht
    exact absurd (htexts (path, e) he t ht _ hpart) (by simp [Part.avoids])

/-- A document can change what others show, although it has nothing to do with them. -/
theorem not_forall_unrelated : ¬∀ (c c' : Collection) (d : Document) (s s' : Resolution),
    c.Gathered → c'.Gathered → c.add d = .ok c' → c.resolve = .ok () s →
      c'.resolve = .ok () s' → c.Unrelated d s' → ∀ path ∈ c.documents.keys,
        s'.labels path = s.labels path ∧ s'.render path = s.render path := by
  intro hall
  obtain ⟨d, hmade, hblocks⟩ : ∃ d, Document.ofDescription? otherUser.1 otherUser.2 = .ok d ∧
      d.blocks = [] := by
    have hok : (match Document.ofDescription? otherUser.1 otherUser.2 with
      | .ok d => d.blocks.isEmpty
      | .error _ => false) = true := by decide +kernel
    split at hok
    · exact ⟨_, ‹_›, List.isEmpty_iff.1 hok⟩
    · cases hok
  have hpath := (Document.numbered_of_ofDescription? hmade).1
  have hsorted : ((oneUser ++ otherUser :: otherTitle).map Prod.fst).Pairwise (· < ·) := by
    decide +kernel
  have habs : ∀ path ∈ (oneUser ++ otherUser :: otherTitle).map Prod.fst,
      Path.isAbs path = true := by decide +kernel
  have hc : (written (oneUser ++ otherTitle)).Gathered :=
    written_gathered (by decide +kernel) (by decide +kernel)
  have hkeys : (written (oneUser ++ otherTitle)).documents.keys =
      ["/a/u", "/a/x", "/lib", "/z/x"] := by decide +kernel
  have htexts : ∀ p ∈ (written (oneUser ++ otherTitle)).documents, ∀ t ∈ p.2.texts,
      ∀ part ∈ t.parts, part.avoids otherUser.1 ["/a/u", "/a/x", "/lib", "/z/x"] = true := by
    decide +kernel
  obtain ⟨s, hs, hrender⟩ := (written (oneUser ++ otherTitle)).exists_resolve_and
    (P := fun s => s.render "/a/u" = .ok "AX\n") (by decide +kernel)
  obtain ⟨s', hs', hrender', hrequests, hlabels, htags⟩ :=
    (written (oneUser ++ otherUser :: otherTitle)).exists_resolve_and
    (P := fun s => s.render "/a/u" = .ok "ZX\n" ∧
      (s.info? otherUser.1).map (fun info => info.requests) = some [] ∧
      s.labels otherUser.1 = [] ∧ s.registry.index.tags = []) (by decide +kernel)
  rw [← hpath] at htexts hrequests hlabels
  have hsame := hall _ _ d s s' hc (written_gathered hsorted habs)
    (add_written oneUser otherTitle (habs otherUser.1 (by simp)) hsorted hmade) hs hs'
    (.of_avoids hblocks hkeys htexts hrequests hlabels htags) "/a/u" (by simp [hkeys])
  rw [hrender, hrender'] at hsame
  exact absurd hsame.2 (by decide)

end Collection

end Folio
