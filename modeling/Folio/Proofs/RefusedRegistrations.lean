import Folio.Proofs.Scope.Attempts

/-!
# What refused registrations leave

A registration that is refused is not taken back. What it has marked before it was refused stays, so
names can be found afterwards that were refused: a tag that clashes outside of the scope that it was
registered in is known in this scope (`Registry.registration_refused_innerTerm`).

`Registry.Tried.registration_refused` says all that can be found, in every registry that comes about
by any operations. An answer is what it was before, or the thing that was refused. The latter needs
a mark on the static chain of the scope that is asked, or, for labeled nodes, in the index. So
nothing is left if it is the scope of the registration itself that refuses, but that the node is
listed in its document.
-/

namespace Folio

namespace Registry

variable {r r' : Registry} {σ τ : ScopeId}

/-! ## Tags -/

/-- All that a refused tag has left: it is found in the scopes in which it is marked, and from where
these are asked. -/
structure TagLeft (r r' : Registry) (typ : String) (e : TagEntry)
    (marks : List (Option ScopeId × String)) : Prop where
  targets : SameTargets r r'
  blocks : SameBlocks r r'
  found : ∀ τ name, (some τ, name) ∈ marks → r'.lookupTag τ typ name = some e
  tag : ∀ τ t name, SameOr e (t = typ ∧ ∃ ρ ∈ r.staticChain τ, (some ρ, name) ∈ marks)
    (r.lookupTag τ t name) (r'.lookupTag τ t name)

/-- The index is the last stop of a tag. -/
theorem not_mem_of_tagStops_eq {explicit : Bool} {scopes : List ScopeId} {document tag key : String}
    {marks rest : List (Option ScopeId × String)} {stop : Option ScopeId × String}
    (h : r.tagStops explicit scopes document tag = marks ++ stop :: rest) :
    (none, key) ∉ marks := by
  induction scopes generalizing document tag marks with
  | nil =>
    cases marks with
    | nil => simp
    | cons mark marks => simp [tagStops] at h
  | cons σ scopes ih =>
    unfold tagStops at h
    split at h
    · exact ih h
    · cases marks with
      | nil => simp
      | cons mark marks =>
        obtain ⟨rfl, htail⟩ := List.cons.inj h
        simpa using ih htail

theorem Tagged.left {typ : String} {e : TagEntry} {marks : List (Option ScopeId × String)}
    (h : Tagged r r' typ e marks) (hindex : ∀ key, (none, key) ∉ marks) :
    TagLeft r r' typ e marks where
  targets := h.alike.sameTargets (fun _ => rfl) (fun _ => rfl) (fun _ => rfl)
    (congrArg (·.index.addresses) h.rest) (congrArg (·.index.roots) h.rest)
    (congrArg (·.entries) h.rest)
  blocks := h.alike.sameBlocks (fun _ => rfl) (fun _ => rfl) (fun _ => rfl)
    (congrArg (·.index.blocks) h.rest) (congrArg (·.index.documents) h.rest)
  found τ name hmem := by
    have hτ := h.tag typ (some τ, name)
    rw [if_pos ⟨rfl, hmem⟩] at hτ
    rw [lookupTag, findStatic_of_bind hτ, Option.some_or]
  tag τ t name := by
    have hat : ∀ ρ, SameOr e (t = typ ∧ (some ρ, name) ∈ marks)
        ((r.scope? ρ).bind (·.tags.lookup (t, name)))
        ((r'.scope? ρ).bind (·.tags.lookup (t, name))) :=
      fun ρ => .of_ite (h.tag t (some ρ, name))
    have hkey : SameOr e False (r.index.tags.lookup (t, name)) (r'.index.tags.lookup (t, name)) :=
      .of_eq ((h.tag t (none, name)).trans (if_neg fun hmem => hindex name hmem.2))
    refine ((h.alike.findStatic_sameOr (fun _ => rfl) hat τ).or hkey).mono ?_
    rintro (⟨ρ, hρ, ht, hmem⟩ | h)
    · exact ⟨ht, ρ, hρ, hmem⟩
    · exact h.elim

/-! ## Blocks -/

/-- All that a refused block has left: it is found in the scopes in which it is marked, and from
where these are asked. -/
structure BlockLeft (r r' : Registry) (tag : String) (marks : List (Option ScopeId)) : Prop where
  targets : SameTargets r r'
  tags : SameTags r r'
  found : ∀ τ, some τ ∈ marks → r'.lookupBlock τ (.tag tag) = some ⟨r.blocks.size⟩
  block : ∀ τ link, SameOr ⟨r.blocks.size⟩ (link.anchor = tag ∧ ∃ ρ, some ρ ∈ marks ∧
      (ρ ∈ r.staticChain τ ∨ r.documentScope? link.path = some ρ))
    (r.lookupBlock τ link) (r'.lookupBlock τ link)

/-- The index is the last stop of a block, and only absolute tags have another one before it. -/
theorem of_blockStops_eq {scopes : List ScopeId} {tag : String} {marks rest : List (Option ScopeId)}
    {stop : Option ScopeId} (h : blockStops tag scopes = marks ++ stop :: rest) :
    none ∉ marks ∧ (marks ≠ [] → Path.isAbs tag = true) := by
  induction scopes generalizing marks with
  | nil =>
    cases marks with
    | nil => simp
    | cons mark marks => simp [blockStops] at h
  | cons σ scopes ih =>
    cases marks with
    | nil => simp
    | cons mark marks =>
      unfold blockStops at h
      obtain ⟨rfl, htail⟩ := List.cons.inj h
      split at htail
      next habs => exact ⟨by simpa using (ih htail).1, fun _ => habs⟩
      · simp at htail

theorem BlockMarked.left {tag : String} {e : BlockEntry} {marks : List (Option ScopeId)}
    (h : BlockMarked { r with blocks := r.blocks.push e } r' tag ⟨r.blocks.size⟩ marks)
    (hindex : none ∉ marks) (habs : marks ≠ [] → Path.isAbs tag = true) :
    BlockLeft r r' tag marks := by
  have halike : Alike Scope.blockless r r' := (Alike.of_scopes rfl).trans h.alike
  have hat : ∀ t ρ, SameOr ⟨r.blocks.size⟩ (t = tag ∧ some ρ ∈ marks)
      ((r.scope? ρ).bind (·.blocks.lookup t)) ((r'.scope? ρ).bind (·.blocks.lookup t)) :=
    fun t ρ => .of_ite (h.block t (some ρ))
  refine {
    targets := halike.sameTargets (fun _ => rfl) (fun _ => rfl) (fun _ => rfl)
      (congrArg (·.index.addresses) h.rest) (congrArg (·.index.roots) h.rest)
      (congrArg (·.entries) h.rest)
    tags := halike.sameTags (fun _ => rfl) (fun _ => rfl) (congrArg (·.index.tags) h.rest)
    found := fun τ hmem => ?_
    block := fun τ link => ?_ }
  · have hτ := h.block tag (some τ)
    rw [if_pos ⟨rfl, hmem⟩] at hτ
    have hne : tag ≠ "" := by
      rintro rfl
      cases habs (List.ne_nil_of_mem hmem)
    have hfound : (r'.scope? τ).bind (atAnchor Scope.blocks (.tag tag)) = some ⟨r.blocks.size⟩ := by
      rw [← hτ]
      exact congrArg (Option.bind (r'.scope? τ)) (funext fun sc => if_neg hne)
    rw [lookupBlock_eq, findStatic_of_bind hfound, Option.some_or]
  · have hscopes := halike.findStatic_sameOr (fun _ => rfl)
      (fun ρ => halike.atAnchor_sameOr (fun _ => rfl) (hat link.anchor ρ)) τ
    have hindex : SameOr ⟨r.blocks.size⟩
        (link.anchor = tag ∧ ∃ ρ, some ρ ∈ marks ∧ r.documentScope? link.path = some ρ)
        (r.indexedBlock link) (r'.indexedBlock link) := by
      cases link with
      | tag name => exact .of_eq ((h.block name none).trans (if_neg fun hmem => hindex hmem.2))
      | place path anchor =>
        have hdocument : r'.documentScope? path = r.documentScope? path :=
          congrArg (·.index.documents.lookup path) h.rest
        rw [indexedBlock, indexedBlock, hdocument]
        cases hd : r.documentScope? path with
        | none => exact .of_eq rfl
        | some ρ => exact (hat anchor ρ).mono fun h => ⟨h.1, ρ, h.2, hd⟩
    rw [lookupBlock_eq, lookupBlock_eq]
    refine (hscopes.or hindex).mono ?_
    rintro (⟨ρ, hρ, ht, hmem⟩ | ⟨ht, ρ, hmem, hρ⟩)
    · exact ⟨ht, ρ, hmem, .inl hρ⟩
    · exact ⟨ht, ρ, hmem, .inr hρ⟩

/-! ## Labeled nodes -/

/-- All that a refused labeled node has left: it is listed in its document, it is found in the
scopes in which it is marked and from where these are asked, and under the links that it was put
into the index with. -/
structure EntryLeft (r r' : Registry) (node : Entry) (marks : List (ScopeId × List String))
    (published : List String) : Prop where
  tags : SameTags r r'
  blocks : SameBlocks r r'
  root : ∀ document, r'.root? document = r.root? document
  entriesOf : ∀ document, r'.entriesOf document =
    r.entriesOf document ++ if node.document = document then [node] else []
  address : ∀ link, r'.address? link = if link ∈ published.map (linkOf node.document)
    then some ⟨node.document, link.anchor, .entry ⟨r.entries.size⟩⟩ else r.address? link
  found : ∀ mark ∈ marks, ∀ tag ∈ mark.2, tag ≠ "" →
    r'.lookupTarget mark.1 (.tag tag) = some (.entry ⟨r.entries.size⟩)
  target : ∀ τ link, SameOr (.entry ⟨r.entries.size⟩)
      ((∃ mark ∈ marks, mark.1 ∈ r.staticChain τ ∧ link.anchor ∈ mark.2) ∨
        link ∈ published.map (linkOf node.document))
    (r.lookupTarget τ link) (r'.lookupTarget τ link)

theorem EntryMarked.left {node : Entry} {marks : List (ScopeId × List String)}
    {published : List String} (h : EntryMarked r r' node marks published) :
    EntryLeft r r' node marks published where
  tags := h.alike.sameTags (fun _ => rfl) (fun _ => rfl) h.kept.tags
  blocks := h.alike.sameBlocks (fun _ => rfl) (fun _ => rfl) (fun _ => rfl) h.kept.blocks
    h.kept.documents
  root document := congrArg (·.index.roots.lookup document) h.rest
  entriesOf document := by
    have hentries : r'.entries = r.entries.push node := congrArg (·.entries) h.rest
    rw [Registry.entriesOf, Registry.entriesOf, hentries, Array.toList_push, List.filter_append]
    by_cases hd : node.document = document <;> simp [hd]
  address := h.address
  found mark hmark tag htag hne := by
    have hτ := h.anchor mark.1 tag
    rw [if_pos ⟨mark, hmark, rfl, htag⟩] at hτ
    have hfound : (r'.scope? mark.1).bind (atAnchor Scope.anchors (.tag tag)) =
        some ⟨r.entries.size⟩ := by
      rw [← hτ]
      exact congrArg (Option.bind (r'.scope? mark.1)) (funext fun sc => if_neg hne)
    rw [lookupTarget, findStatic_of_bind hfound, Option.map_some, Option.some_or]
  target τ link := by
    have hat : ∀ ρ, SameOr ⟨r.entries.size⟩ (∃ mark ∈ marks, mark.1 = ρ ∧ link.anchor ∈ mark.2)
        ((r.scope? ρ).bind (·.anchors.lookup link.anchor))
        ((r'.scope? ρ).bind (·.anchors.lookup link.anchor)) :=
      fun ρ => .of_ite (h.anchor ρ link.anchor)
    have hscopes := h.alike.findStatic_sameOr (fun _ => rfl)
      (fun ρ => h.alike.atAnchor_sameOr (fun _ => rfl) (hat ρ)) τ
    have hindex := (SameOr.of_ite (h.address link)).map Address.target
    refine ((hscopes.map Target.entry).or hindex).mono ?_
    rintro (⟨ρ, hρ, mark, hmark, rfl, hmem⟩ | hlink)
    · exact .inl ⟨mark, hmark, hρ, hmem⟩
    · exact .inr hlink

/-! ## Registrations that are refused -/

/-- A registration that is refused leaves its marks at the stops before the one that is taken, all
of which were free. Everything else is found as before. -/
theorem Tried.registration_refused (hr : r.Tried) (hσ : (r.scope? σ).isSome) :
    (∀ node tags explicit err r', registerEntry σ node tags explicit r = .error err r' →
      ∃ marks published, EntryLeft r r' node marks published ∧
        (∀ mark ∈ marks, r.Admits node.id mark) ∧
        r.EntryBlocked node.id (r.entryStops explicit (r.dynamicChain σ) tags)
          (r.outward explicit (r.dynamicChain σ) tags) marks published) ∧
    (∀ typ tag e explicit err r', registerTag σ typ tag e explicit r = .error err r' →
      ∃ marks stop rest, TagLeft r r' typ e marks ∧ (∀ mark ∈ marks, r.tagAt? typ mark = none) ∧
        r.tagStops explicit (r.dynamicChain σ) "" tag = marks ++ stop :: rest ∧
        (r.tagAt? typ stop).isSome) ∧
    (∀ tag e err r', registerBlock σ tag e r = .error err r' →
      ∃ marks stop rest, BlockLeft r r' tag marks ∧ (∀ mark ∈ marks, r.blockAt? tag mark = none) ∧
        blockStops tag (r.dynamicChain σ) = marks ++ stop :: rest ∧
        (r.blockAt? tag stop).isSome) := by
  have hn := hr.layered.nodup_dynamicChain hσ
  have hs : ∀ τ ∈ r.dynamicChain σ, (r.scope? τ).isSome :=
    fun τ hτ => hr.layered.isSome_of_mem_dynamicChain hσ hτ
  refine ⟨fun node tags explicit err r' herr => ?_, fun typ tag e explicit err r' herr => ?_,
    fun tag e err r' herr => ?_⟩
  · obtain ⟨marks, published, hmarked, hadmits, hblocked⟩ :=
      (registerEntry_concludes hn hs node tags explicit).of_error herr
    exact ⟨marks, published, hmarked.left, hadmits, hblocked⟩
  · obtain ⟨marks, stop, ⟨⟨rest, hsplit⟩, hfree, htaken⟩, htagged, -⟩ :=
      (registerTag_concludes hn typ tag e explicit).of_error herr
    exact ⟨marks, stop, rest, htagged.left fun key => not_mem_of_tagStops_eq hsplit, hfree, hsplit,
      Option.isSome_iff_ne_none.2 htaken⟩
  · obtain ⟨marks, stop, ⟨⟨rest, hsplit⟩, hfree, htaken⟩, hmarked⟩ :=
      (registerBlock_concludes hn hs tag e).of_error herr
    obtain ⟨hindex, habs⟩ := of_blockStops_eq hsplit
    exact ⟨marks, stop, rest, hmarked.left hindex habs, hfree, hsplit,
      Option.isSome_iff_ne_none.2 htaken⟩

/-- A document with an expansion, which has the name `demo-1`. -/
def documentWithDemo : Registry :=
  ((({ rootType := "section" } : Registry).addDocument "/doc").2.newScope "demo-1" "/doc"
    (some ⟨0⟩) (some ⟨0⟩)).2

/-- A term of the document. -/
def outerTerm : TagEntry := ⟨⟨0⟩, ⟨"/doc", 0⟩, ⟨"/doc", 1, 1⟩⟩

/-- A term of the expansion. -/
def innerTerm : TagEntry := ⟨⟨1⟩, ⟨"/doc", 1⟩, ⟨"/doc", 2, 1⟩⟩

/-- The document has a term under the name that comes out of the expansion for the tag `t`. -/
theorem exists_outerTerm {P : Registry → Prop} [DecidablePred P]
    (h : (match registerTag ⟨0⟩ "term" "demo-1/t" outerTerm false documentWithDemo with
      | .ok _ r => decide (P r) | .error _ _ => false) = true) : ∃ r, r.Tried ∧ P r := by
  obtain ⟨u, r, hok, hP⟩ := exists_ok_and (P := fun _ => P) (s := documentWithDemo)
    (m := registerTag ⟨0⟩ "term" "demo-1/t" outerTerm false) h
  refine ⟨r, ⟨"section", ?_⟩, hP⟩
  refine .tail (.tail (.tail .refl (.document "/doc")) (.scope "demo-1" "/doc" ?_ ?_))
    (.tag (σ := ⟨0⟩) rfl (.of_ok hok rfl))
  · rintro p ⟨⟩
    rfl
  · rintro o ⟨⟩
    rfl

/-- The term of the expansion is refused in the document, and known in the expansion from then
on. -/
theorem registration_refused_innerTerm : ∃ r : Registry, r.Tried ∧ (r.scope? ⟨1⟩).isSome ∧
    r.lookupTag ⟨1⟩ "term" "t" = none ∧
    ∃ err r', registerTag ⟨1⟩ "term" "t" innerTerm false r = .error err r' ∧
      r'.lookupTag ⟨1⟩ "term" "t" = some innerTerm ∧ SameTargets r r' ∧ SameBlocks r r' ∧
      ∀ τ typ name, name ≠ "t" → r'.lookupTag τ typ name = r.lookupTag τ typ name := by
  obtain ⟨r, hr, hσ, hnone, hstops, hfree, htaken, hfails⟩ := exists_outerTerm
    (P := fun r => (r.scope? ⟨1⟩).isSome ∧ r.lookupTag ⟨1⟩ "term" "t" = none ∧
      r.tagStops false (r.dynamicChain ⟨1⟩) "" "t" =
        [(some ⟨1⟩, "t"), (some ⟨0⟩, "demo-1/t"), (none, "/doc#demo-1/t")] ∧
      r.tagAt? "term" (some ⟨1⟩, "t") = none ∧ r.tagAt? "term" (some ⟨0⟩, "demo-1/t") ≠ none ∧
      (match registerTag ⟨1⟩ "term" "t" innerTerm false r with
        | .ok .. => false | .error .. => true) = true) (by decide +kernel)
  cases herr : registerTag ⟨1⟩ "term" "t" innerTerm false r with
  | ok u r' => simp [herr] at hfails
  | error err r' =>
    obtain ⟨marks, stop, rest, hleft, hmarks, hsplit, hstop⟩ :=
      (hr.registration_refused hσ).2.1 "term" "t" innerTerm false err r' herr
    rw [hstops] at hsplit
    -- the first stop is free, and the second one is not
    have hone : marks = [(some ⟨1⟩, "t")] := by
      match marks, hsplit with
      | [], hsplit =>
        cases hsplit
        rw [hfree] at hstop
        cases hstop
      | [mark], hsplit =>
        cases hsplit
        rfl
      | mark :: mark' :: marks, hsplit =>
        simp only [List.cons_append, List.cons.injEq] at hsplit
        exact (htaken (hsplit.2.1 ▸ hmarks mark' (by simp))).elim
    subst hone
    refine ⟨r, hr, hσ, hnone, err, r', herr, hleft.found ⟨1⟩ "t" (by simp), hleft.targets,
      hleft.blocks, fun τ typ name hname => ?_⟩
    rcases hleft.tag τ typ name with heq | ⟨-, -, ρ, -, hmem⟩
    · exact heq
    · simp [hname] at hmem

/-- What a refused registration has left can be found. -/
theorem not_forall_sameAnswers : ¬∀ (r : Registry) (σ : ScopeId), r.Tried → (r.scope? σ).isSome →
    (∀ node tags explicit err r', registerEntry σ node tags explicit r = .error err r' →
      SameAnswers r r') ∧
    (∀ typ tag e explicit err r', registerTag σ typ tag e explicit r = .error err r' →
      SameAnswers r r') ∧
    (∀ tag e err r', registerBlock σ tag e r = .error err r' → SameAnswers r r') := by
  intro h
  obtain ⟨r, hr, hσ, hnone, hfound⟩ := exists_outerTerm
    (P := fun r => (r.scope? ⟨1⟩).isSome ∧ r.lookupTag ⟨1⟩ "term" "t" = none ∧
      (match registerTag ⟨1⟩ "term" "t" innerTerm false r with
        | .ok .. => false | .error _ r' => (r'.lookupTag ⟨1⟩ "term" "t").isSome) = true)
    (by decide +kernel)
  cases herr : registerTag ⟨1⟩ "term" "t" innerTerm false r with
  | ok u r' => simp [herr] at hfound
  | error err r' =>
    have hsame := ((h r ⟨1⟩ hr hσ).2.1 _ _ _ _ _ _ herr).tags ⟨1⟩ "term" "t"
    rw [herr] at hfound
    simp [hsame, hnone] at hfound

end Registry

end Folio
