import Folio.Proofs.Scope.Answers
import Folio.Proofs.Scope.Entering

/-!
# Registrations that are refused

A registration comes to the scopes of a dynamic chain, one after the other, and to the index of all
documents. Each place has to be free, and is marked then. So a registration is refused at the first
place that is taken, and the marks that it has made before that stay (`Halts`).

The places that a registration comes to are known beforehand, with the name that it has there
(`Registry.tagStops`, `Registry.blockStops`, `Registry.entryStops`). What it does to them, whether
it is accepted or refused, is said by `Registry.registerTag_concludes`,
`Registry.registerBlock_concludes` and `Registry.registerEntry_concludes`. They ask for a chain that
comes to no scope twice, so that no registration is refused because of its own marks.
-/

namespace Folio

/-! ## Stops -/

/-- The first of some stops that is not free, and what comes before it. -/
structure Halts {α : Type} (free : α → Prop) (stops marks : List α) (stop : α) : Prop where
  split : ∃ rest, stops = marks ++ stop :: rest
  before : ∀ mark ∈ marks, free mark
  taken : ¬free stop

/-- In the places `marks` a name stands for `v` now, and everything else stands as before. -/
def Marked {α β : Type} [BEq α] [LawfulBEq α] (at₀ at₁ : String → α → Option β) (name : String)
    (v : β) (marks : List α) : Prop :=
  ∀ n place, at₁ n place = if n = name ∧ place ∈ marks then some v else at₀ n place

section Stops

variable {α β : Type} {free free' : α → Prop} {stops marks marks' : List α} {mark stop : α}

theorem Halts.head (h : ¬free stop) : Halts free (stop :: stops) [] stop :=
  ⟨⟨stops, rfl⟩, by simp, h⟩

theorem Halts.mem (h : Halts free stops marks stop) : stop ∈ stops := by
  obtain ⟨rest, rfl⟩ := h.split
  simp

theorem Halts.cons (h : Halts free' stops marks stop) (hmark : free mark)
    (hsame : ∀ s ∈ stops, free' s ↔ free s) : Halts free (mark :: stops) (mark :: marks) stop := by
  obtain ⟨⟨rest, rfl⟩, hbefore, htaken⟩ := h
  refine ⟨⟨rest, rfl⟩, fun s hs => ?_, fun hfree => htaken ((hsame stop (by simp)).2 hfree)⟩
  rcases List.mem_cons.1 hs with rfl | hs
  · exact hmark
  · exact (hsame s (by simp [hs])).1 (hbefore s hs)

namespace Marked

variable [BEq α] [LawfulBEq α] {at₀ at₁ at₂ : String → α → Option β} {name : String} {v : β}

theorem refl : Marked at₀ at₀ name v [] := fun n place => by
  rw [if_neg fun h => List.not_mem_nil h.2]

theorem trans (h : Marked at₀ at₁ name v marks) (h' : Marked at₁ at₂ name v marks') :
    Marked at₀ at₂ name v (marks ++ marks') := fun n place => by
  rw [h' n place, h n place]
  by_cases hn : n = name <;> by_cases hm : place ∈ marks <;> by_cases hm' : place ∈ marks' <;>
    simp [hn, hm, hm']

theorem of_not_mem (h : Marked at₀ at₁ name v marks) (hstop : stop ∉ marks) :
    at₁ name stop = at₀ name stop := by
  rw [h name stop, if_neg fun hm => hstop hm.2]

/-- A mark is in nobody's way behind it. -/
theorem eq_behind (h : Marked at₀ at₁ name v [mark]) (hnew : mark ∉ stops) (hstop : stop ∈ stops) :
    at₁ name stop = at₀ name stop :=
  h.of_not_mem fun hmem => hnew (List.mem_singleton.1 hmem ▸ hstop)

end Marked

end Stops

namespace Registry

variable {r r' r'' : Registry}

/-! ## Tags -/

/-- What a tag stands for in a scope, or in the index of all documents. -/
def tagAt? (r : Registry) (typ : String) : Option ScopeId × String → Option TagEntry
  | (some σ, tag) => (r.scope? σ).bind (·.tags.lookup (typ, tag))
  | (none, tag) => r.index.tags.lookup (typ, tag)

/-- The name that a tag of a document has in the index of all documents. -/
def tagKey (document tag : String) : String :=
  if Path.isAbs tag then tag else document ++ "#" ++ tag

/-- Where a tag is registered, and its name there: first in some scopes, and then in the index. -/
def tagStops (r : Registry) (explicit : Bool) :
    List ScopeId → String → String → List (Option ScopeId × String)
  | [], document, tag => [(none, tagKey document tag)]
  | σ :: rest, document, tag =>
    match r.scope? σ with
    | none => tagStops r explicit rest document tag
    | some sc =>
      (some σ, tag) :: tagStops r explicit rest sc.document (if explicit then tag else sc.lift tag)

/-- A tag was registered at the stops `marks`, and nothing else has changed. -/
structure Tagged (r r' : Registry) (typ : String) (e : TagEntry)
    (marks : List (Option ScopeId × String)) : Prop where
  alike : Alike Scope.tagless r r'
  rest : r' = { r with scopes := r'.scopes, index.tags := r'.index.tags }
  tag : Marked r.tagAt? r'.tagAt? typ e marks

variable {typ tag name document : String} {e : TagEntry} {explicit : Bool} {scopes : List ScopeId}
  {σ : ScopeId} {stop : Option ScopeId × String}
  {stops marks marks' : List (Option ScopeId × String)}

namespace Tagged

theorem refl (r : Registry) (typ : String) (e : TagEntry) : Tagged r r typ e [] where
  alike := .refl r
  rest := rfl
  tag := .refl

theorem trans (h : Tagged r r' typ e marks) (h' : Tagged r' r'' typ e marks') :
    Tagged r r'' typ e (marks ++ marks') where
  alike := h.alike.trans h'.alike
  rest := by
    have heq := h'.rest
    rw [h.rest] at heq
    exact heq
  tag := h.tag.trans h'.tag

theorem inScope {sc : Scope} (hσ : r.scope? σ = some sc) (typ tag : String) (e : TagEntry) :
    Tagged r (r.modifyScope σ fun sc => { sc with tags := ((typ, tag), e) :: sc.tags }) typ e
    [(some σ, tag)] where
  alike := .modifyScope r σ fun _ => rfl
  rest := rfl
  tag t stop := by
    obtain ⟨_ | τ, name⟩ := stop
    · simp [tagAt?, Registry.modifyScope]
    · rw [tagAt?, tagAt?, scope?_modifyScope]
      by_cases hτ : τ = σ
      · subst hτ
        rw [if_pos rfl, hσ, Option.map_some, Option.bind_some, lookup_cons_eq_ite]
        simp
      · simp [hτ]

theorem inIndex (r : Registry) :
    Tagged r { r with index.tags := ((typ, tag), e) :: r.index.tags } typ e [(none, tag)] where
  alike := .of_scopes rfl
  rest := rfl
  tag t stop := by
    obtain ⟨_ | τ, name⟩ := stop
    · rw [tagAt?, lookup_cons_eq_ite]
      simp [tagAt?]
    · simp [tagAt?, scope?]

end Tagged

/-- Only the places of scopes matter for where a tag comes to. -/
theorem tagStops_congr (h : Alike Scope.place r r') (scopes : List ScopeId)
    (document tag : String) :
    r'.tagStops explicit scopes document tag = r.tagStops explicit scopes document tag := by
  induction scopes generalizing document tag with
  | nil => rfl
  | cons σ rest ih =>
    have hσ := h σ
    unfold tagStops
    cases hsc : r.scope? σ with
    | none =>
      rw [hsc, Option.map_none, Option.map_eq_none_iff] at hσ
      rw [hσ]
      exact ih document tag
    | some sc =>
      rw [hsc, Option.map_some] at hσ
      obtain ⟨sc', hsc', hplace⟩ := Option.map_eq_some_iff.1 hσ
      rw [hsc']
      dsimp only
      rw [ih, Scope.document_eq_of_place hplace, Scope.lift, Scope.lift,
        Scope.name_eq_of_place hplace]

theorem mem_of_mem_tagStops (h : (some σ, tag) ∈ r.tagStops explicit scopes document name) :
    σ ∈ scopes := by
  induction scopes generalizing document name with
  | nil => simp [tagStops] at h
  | cons τ rest ih =>
    unfold tagStops at h
    split at h
    · exact List.mem_cons_of_mem τ (ih h)
    · rcases List.mem_cons.1 h with h | h
      · cases h
        exact List.mem_cons_self
      · exact List.mem_cons_of_mem τ (ih h)

/-- A tag was registered at all of its stops, which were free. -/
structure TagAccepted (r r' : Registry) (typ : String) (e : TagEntry)
    (stops : List (Option ScopeId × String)) : Prop where
  tagged : Tagged r r' typ e stops
  free : ∀ stop ∈ stops, r.tagAt? typ stop = none

theorem TagAccepted.cons {mark : Option ScopeId × String} (h : TagAccepted r' r'' typ e stops)
    (hmark : Tagged r r' typ e [mark]) (hfree : r.tagAt? typ mark = none) (hnew : mark ∉ stops) :
    TagAccepted r r'' typ e (mark :: stops) where
  tagged := hmark.trans h.tagged
  free stop hstop := by
    rcases List.mem_cons.1 hstop with rfl | hstop
    · exact hfree
    · exact (hmark.tag.eq_behind hnew hstop).symm.trans (h.free stop hstop)

/-- A tag was registered at some of the stops, and refused at the next one. -/
def TagRefused (r r' : Registry) (typ : String) (e : TagEntry)
    (stops : List (Option ScopeId × String)) (err : ResolveError) : Prop :=
  ∃ marks stop, Halts (r.tagAt? typ · = none) stops marks stop ∧ Tagged r r' typ e marks ∧
    ∃ first text, r.tagAt? typ stop = some first ∧
      err = .located e.location (.duplicate .tag text first.location)

theorem TagRefused.head {first : TagEntry} {text : String} (h : r.tagAt? typ stop = some first) :
    TagRefused r r typ e (stop :: stops)
      (.located e.location (.duplicate .tag text first.location)) :=
  ⟨[], stop, .head (by simp [h]), .refl r typ e, first, text, h, rfl⟩

theorem TagRefused.cons {mark : Option ScopeId × String} {err : ResolveError}
    (h : TagRefused r' r'' typ e stops err) (hmark : Tagged r r' typ e [mark])
    (hfree : r.tagAt? typ mark = none) (hnew : mark ∉ stops) :
    TagRefused r r'' typ e (mark :: stops) err := by
  obtain ⟨marks, stop, hhalts, htagged, first, text, hfirst, herr⟩ := h
  refine ⟨mark :: marks, stop, hhalts.cons hfree fun s hs => ?_, hmark.trans htagged, first, text,
    (hmark.tag.eq_behind hnew hhalts.mem).symm.trans hfirst, herr⟩
  rw [hmark.tag.eq_behind hnew hs]

/-- What is left to do with a tag behind the scopes. -/
def publishTag (typ : String) (e : TagEntry) (out : String × String) : Step Unit := do
  let r ← get
  match r.index.tags.lookup (typ, tagKey out.1 out.2) with
  | some first => throw (.located e.location (.duplicate .tag out.2 first.location))
  | none => set { r with index.tags := ((typ, tagKey out.1 out.2), e) :: r.index.tags }

theorem registerTagUp_concludes (typ : String) (e : TagEntry) (explicit : Bool)
    (hn : scopes.Nodup) (document tag : String) (r : Registry) :
    Concludes (registerTagUp typ e explicit scopes document tag >>= publishTag typ e) r
      (fun _ r' => TagAccepted r r' typ e (r.tagStops explicit scopes document tag))
      (fun err r' => TagRefused r r' typ e (r.tagStops explicit scopes document tag) err) := by
  rw [Concludes.bind_iff]
  induction scopes generalizing document tag r with
  | nil =>
    unfold registerTagUp publishTag
    rw [Concludes.pure_iff, Concludes.bind_iff, Concludes.get_iff]
    split
    next first htaken => exact .head htaken
    next hfree => exact ⟨.inIndex r, by simpa [tagStops, tagAt?] using hfree⟩
  | cons σ rest ih =>
    obtain ⟨hσ, hn⟩ := List.nodup_cons.1 hn
    unfold registerTagUp tagStops
    rw [Concludes.bind_iff, Concludes.get_iff]
    cases hsc : r.scope? σ with
    | none => exact ih hn document tag r
    | some sc =>
      have htag : r.tagAt? typ (some σ, tag) = sc.tags.lookup (typ, tag) := by
        rw [tagAt?, hsc, Option.bind_some]
      dsimp only
      split
      next first htaken => exact .head (htag.trans htaken)
      next hfree =>
        have hfree := htag.trans hfree
        have hmark := Tagged.inScope hsc typ tag e
        have hplace : Alike Scope.place r _ := hmark.alike.map_eq fun _ => rfl
        -- the scope is not passed again, so its mark is in nobody's way
        have hnew : ∀ d t, (some σ, tag) ∉ r.tagStops explicit rest d t :=
          fun d t hmem => hσ (mem_of_mem_tagStops hmem)
        rw [Concludes.bind_iff, Concludes.set_iff]
        have hrest := ih hn sc.document (if explicit then tag else sc.lift tag)
          (r.modifyScope σ fun sc => { sc with tags := ((typ, tag), e) :: sc.tags })
        rw [tagStops_congr hplace] at hrest
        refine hrest.mono (fun _ _ h => h.mono (fun _ r' h => ?_) fun err r' h => ?_)
          fun err r' h => ?_
        · exact h.cons hmark hfree (hnew _ _)
        · exact h.cons hmark hfree (hnew _ _)
        · exact h.cons hmark hfree (hnew _ _)

/-- A tag is registered at its stops until one of them is taken. -/
theorem registerTag_concludes (hn : (r.dynamicChain σ).Nodup) (typ tag : String) (e : TagEntry)
    (explicit : Bool) :
    Concludes (registerTag σ typ tag e explicit) r
      (fun _ r' => TagAccepted r r' typ e (r.tagStops explicit (r.dynamicChain σ) "" tag))
      (fun err r' => TagRefused r r' typ e (r.tagStops explicit (r.dynamicChain σ) "" tag) err) :=
  registerTagUp_concludes typ e explicit hn "" tag r

/-! ## Blocks -/

/-- The block with a tag in a scope, or in the index of all documents. -/
def blockAt? (r : Registry) (tag : String) : Option ScopeId → Option BlockId
  | some σ => (r.scope? σ).bind (·.blocks.lookup tag)
  | none => r.index.blocks.lookup tag

/-- Where a block is registered. Only an absolute tag gets beyond the first scope. -/
def blockStops (tag : String) : List ScopeId → List (Option ScopeId)
  | [] => [none]
  | σ :: rest => some σ :: if Path.isAbs tag then blockStops tag rest else []

/-- A block was registered at the stops `marks`, and nothing else has changed. -/
structure BlockMarked (r r' : Registry) (tag : String) (id : BlockId)
    (marks : List (Option ScopeId)) : Prop where
  alike : Alike Scope.blockless r r'
  rest : r' = { r with scopes := r'.scopes, index.blocks := r'.index.blocks }
  block : Marked r.blockAt? r'.blockAt? tag id marks

/-- A block was registered at some of the stops, and refused at the next one. -/
def BlockRefused (r r' : Registry) (tag : String) (id : BlockId) (stops : List (Option ScopeId)) :
    Prop :=
  ∃ marks stop, Halts (r.blockAt? tag · = none) stops marks stop ∧ BlockMarked r r' tag id marks

variable {b : BlockId} {place : Option ScopeId} {places places' : List (Option ScopeId)}

namespace BlockMarked

theorem refl (r : Registry) (tag : String) (b : BlockId) : BlockMarked r r tag b [] where
  alike := .refl r
  rest := rfl
  block := .refl

theorem trans (h : BlockMarked r r' tag b places) (h' : BlockMarked r' r'' tag b places') :
    BlockMarked r r'' tag b (places ++ places') where
  alike := h.alike.trans h'.alike
  rest := by
    have heq := h'.rest
    rw [h.rest] at heq
    exact heq
  block := h.block.trans h'.block

theorem inScope (hσ : (r.scope? σ).isSome) : BlockMarked r
    (r.modifyScope σ fun sc => { sc with blocks := (tag, b) :: sc.blocks }) tag b [some σ] where
  alike := .modifyScope r σ fun _ => rfl
  rest := rfl
  block t place := by
    obtain ⟨sc, hsc⟩ := Option.isSome_iff_exists.1 hσ
    cases place with
    | none => simp [blockAt?, Registry.modifyScope]
    | some τ =>
      rw [blockAt?, blockAt?, scope?_modifyScope]
      by_cases hτ : τ = σ
      · subst hτ
        rw [if_pos rfl, hsc, Option.map_some, Option.bind_some, lookup_cons_eq_ite]
        simp
      · simp [hτ]

theorem inIndex (r : Registry) :
    BlockMarked r { r with index.blocks := (tag, b) :: r.index.blocks } tag b [none] where
  alike := .of_scopes rfl
  rest := rfl
  block t place := by
    cases place with
    | none =>
      rw [blockAt?, lookup_cons_eq_ite]
      simp [blockAt?]
    | some τ => simp [blockAt?, scope?]

end BlockMarked

theorem BlockRefused.cons (h : BlockRefused r' r'' tag b places)
    (hmark : BlockMarked r r' tag b [place]) (hfree : r.blockAt? tag place = none)
    (hnew : place ∉ places) : BlockRefused r r'' tag b (place :: places) := by
  obtain ⟨marks, stop, hhalts, hmarked⟩ := h
  refine ⟨place :: marks, stop, hhalts.cons hfree fun p hp => ?_, hmark.trans hmarked⟩
  rw [hmark.block.eq_behind hnew hp]

theorem mem_of_mem_blockStops (h : some σ ∈ blockStops tag scopes) : σ ∈ scopes := by
  induction scopes with
  | nil => simp [blockStops] at h
  | cons τ rest ih =>
    unfold blockStops at h
    rcases List.mem_cons.1 h with h | h
    · cases h
      exact List.mem_cons_self
    · split at h
      · exact List.mem_cons_of_mem τ (ih h)
      · cases h

theorem registerBlockUp_concludes (tag : String) (location : Location) (b : BlockId)
    (hn : scopes.Nodup) (hs : ∀ σ ∈ scopes, (r.scope? σ).isSome) :
    Concludes (registerBlockUp tag location b scopes) r
      (fun _ r' => BlockMarked r r' tag b (blockStops tag scopes))
      (fun _ r' => BlockRefused r r' tag b (blockStops tag scopes)) := by
  induction scopes generalizing r with
  | nil =>
    unfold registerBlockUp
    rw [Concludes.bind_iff, Concludes.get_iff]
    dsimp only
    split
    next other htaken =>
      exact ⟨[], none, .head (by simp [blockAt?, htaken]), .refl r tag b⟩
    next hfree => exact .inIndex r
  | cons σ rest ih =>
    obtain ⟨hσ, hn⟩ := List.nodup_cons.1 hn
    have hat : r.blockAt? tag (some σ) = ((r.scope? σ).map Scope.blocks).bind (·.lookup tag) := by
      rw [blockAt?, Option.map_eq_bind, Option.bind_assoc]
      rfl
    unfold registerBlockUp blockStops
    rw [Concludes.bind_iff, Concludes.get_iff, ← hat]
    dsimp only
    split
    next other htaken =>
      exact ⟨[], _, .head (by simp [htaken]), .refl r tag b⟩
    next hfree =>
      have hmark : BlockMarked r (r.modifyScope σ fun sc =>
          { sc with blocks := (tag, b) :: sc.blocks }) tag b [some σ] :=
        .inScope (hs σ List.mem_cons_self)
      rw [Concludes.bind_iff, Concludes.set_iff]
      split
      · refine (ih hn fun τ hτ => ?_).mono (fun _ r' h => hmark.trans h) fun _ r' h =>
          h.cons hmark hfree fun hmem => hσ (mem_of_mem_blockStops hmem)
        rw [← Option.isSome_map (f := Scope.blockless), hmark.alike, Option.isSome_map]
        exact hs τ (List.mem_cons_of_mem σ hτ)
      · exact hmark

/-- A block is registered at its stops until one of them is taken. It is put to the others in any
case. -/
theorem registerBlock_concludes (hn : (r.dynamicChain σ).Nodup)
    (hs : ∀ τ ∈ r.dynamicChain σ, (r.scope? τ).isSome) (tag : String) (e : BlockEntry) :
    Concludes (registerBlock σ tag e) r
      (fun _ r' => BlockMarked { r with blocks := r.blocks.push e } r' tag ⟨r.blocks.size⟩
        (blockStops tag (r.dynamicChain σ)))
      (fun _ r' => BlockRefused { r with blocks := r.blocks.push e } r' tag ⟨r.blocks.size⟩
        (blockStops tag (r.dynamicChain σ))) := by
  unfold registerBlock
  rw [Concludes.bind_iff, Concludes.get_iff]
  dsimp only
  rw [Concludes.bind_iff, Concludes.set_iff, Concludes.bind_iff]
  exact registerBlockUp_concludes tag e.block.location _ hn hs

/-! ## Labeled nodes -/

/-- Where a labeled node is registered, and its tags there, before it comes to the index. -/
def entryStops (r : Registry) (explicit : Bool) :
    List ScopeId → List String → List (ScopeId × List String)
  | [], _ => []
  | σ :: rest, tags => (σ, tags) :: entryStops r explicit rest (r.handOn explicit σ tags)

/-- A scope is free for a labeled node if it knows neither its id nor one of its tags. -/
def Admits (r : Registry) (id : LabelId) (stop : ScopeId × List String) : Prop :=
  (r.scope? stop.1).bind (·.ids.lookup id) = none ∧
    ∀ tag ∈ stop.2, (r.scope? stop.1).bind (·.anchors.lookup tag) = none

/-- A labeled node was registered in scopes, at the stops `marks`, and nothing else has changed. -/
structure Anchored (r r' : Registry) (id : EntryId) (marks : List (ScopeId × List String)) :
    Prop where
  alike : Alike Scope.idless r r'
  rest : r' = { r with scopes := r'.scopes }
  off : ∀ σ, σ ∉ marks.map Prod.fst → r'.scope? σ = r.scope? σ
  anchor : ∀ σ tag, (r'.scope? σ).bind (·.anchors.lookup tag) =
    if ∃ mark ∈ marks, mark.1 = σ ∧ tag ∈ mark.2 then some id
    else (r.scope? σ).bind (·.anchors.lookup tag)

/-- A labeled node was registered at some of the stops, and refused at the next one. -/
def EntryRefused (r r' : Registry) (label : LabelId) (id : EntryId)
    (stops : List (ScopeId × List String)) : Prop :=
  ∃ marks stop, Halts (r.Admits label) stops marks stop ∧ Anchored r r' id marks

variable {id : EntryId} {label : LabelId} {node : Entry} {tags : List String}
  {entryMarks entryMarks' : List (ScopeId × List String)} {mark : ScopeId × List String}

namespace Anchored

theorem refl (r : Registry) (id : EntryId) : Anchored r r id [] where
  alike := .refl r
  rest := rfl
  off _ _ := rfl
  anchor σ tag := by simp

theorem trans (h : Anchored r r' id entryMarks) (h' : Anchored r' r'' id entryMarks') :
    Anchored r r'' id (entryMarks ++ entryMarks') where
  alike := h.alike.trans h'.alike
  rest := by
    have heq := h'.rest
    rw [h.rest] at heq
    exact heq
  off σ hσ := by
    rw [List.map_append, List.mem_append, not_or] at hσ
    exact (h'.off σ hσ.2).trans (h.off σ hσ.1)
  anchor σ tag := by
    rw [h'.anchor, h.anchor]
    simp only [List.mem_append, or_and_right, exists_or]
    by_cases hm' : ∃ mark ∈ entryMarks', mark.1 = σ ∧ tag ∈ mark.2
    · rw [if_pos hm', if_pos (.inr hm')]
    · rw [if_neg hm']
      exact if_congr (or_iff_left hm').symm rfl rfl

theorem admits_iff (h : Anchored r r' id [mark]) (stop : ScopeId × List String)
    (hne : stop.1 ≠ mark.1) : r'.Admits label stop ↔ r.Admits label stop := by
  have heq := h.off stop.1 (by simpa using hne)
  rw [Admits, Admits, heq]

end Anchored

theorem lookup_anchors (tags : List String) (id : EntryId) (t : List (String × EntryId))
    (tag : String) : (tags.map (·, id) ++ t).lookup tag =
      if tag ∈ tags then some id else t.lookup tag := by
  induction tags with
  | nil => simp
  | cons x xs ih =>
    rw [List.map_cons, List.cons_append, lookup_cons_eq_ite, ih]
    by_cases hx : tag = x <;> simp [hx]

theorem registerIn_concludes (hσ : (r.scope? σ).isSome) (id : EntryId) (node : Entry)
    (tags : List String) : Concludes (registerIn σ id node tags) r
      (fun _ r' => r.Admits node.id (σ, tags) ∧ Anchored r r' id [(σ, tags)])
      (fun _ r' => ¬r.Admits node.id (σ, tags) ∧ r' = r) := by
  obtain ⟨sc, hsc⟩ := Option.isSome_iff_exists.1 hσ
  have hadmits : r.Admits node.id (σ, tags) ↔ sc.ids.lookup node.id = none ∧
      ∀ tag ∈ tags, sc.anchors.lookup tag = none := by
    rw [Admits, hsc]
    exact Iff.rfl
  unfold registerIn
  rw [Concludes.bind_iff, Concludes.get_iff, hsc]
  dsimp only
  cases htaken : tags.findSome? fun tag => (sc.anchors.lookup tag).map (tag, ·) with
  | some taken =>
    refine ⟨fun h => ?_, rfl⟩
    obtain ⟨tag, hmem, ht⟩ := List.exists_of_findSome?_eq_some htaken
    rw [(hadmits.1 h).2 tag hmem] at ht
    cases ht
  | none =>
    cases hid : sc.ids.lookup node.id with
    | some other =>
      refine ⟨fun h => ?_, rfl⟩
      cases hid.symm.trans (hadmits.1 h).1
    | none =>
      have hfree : ∀ tag ∈ tags, sc.anchors.lookup tag = none := fun tag hmem => by
        simpa using List.findSome?_eq_none_iff.1 htaken tag hmem
      refine ⟨hadmits.2 ⟨hid, hfree⟩, .modifyScope r σ fun _ => rfl, rfl, fun τ hτ => ?_,
        fun τ tag => ?_⟩
      · rw [scope?_modifyScope, if_neg (by simpa using hτ)]
      · rw [scope?_modifyScope]
        by_cases hτ : τ = σ
        · subst hτ
          rw [if_pos rfl, hsc, Option.map_some, Option.bind_some, Option.bind_some, lookup_anchors]
          simp
        · simp [hτ, Ne.symm hτ]

/-- Only the places of scopes matter for where a labeled node comes to. -/
theorem entryStops_congr (h : Alike Scope.place r r') (scopes : List ScopeId)
    (tags : List String) :
    r'.entryStops explicit scopes tags = r.entryStops explicit scopes tags := by
  induction scopes generalizing tags with
  | nil => rfl
  | cons σ rest ih => rw [entryStops, entryStops, handOn_congr (h σ), ih]

theorem map_fst_entryStops (scopes : List ScopeId) (tags : List String) :
    (r.entryStops explicit scopes tags).map Prod.fst = scopes := by
  induction scopes generalizing tags with
  | nil => rfl
  | cons σ rest ih => rw [entryStops, List.map_cons, ih]

theorem registerUp_concludes (id : EntryId) (node : Entry) (explicit : Bool) (hn : scopes.Nodup)
    (hs : ∀ σ ∈ scopes, (r.scope? σ).isSome) (tags : List String) :
    Concludes (registerUp id node explicit scopes tags) r
      (fun out r' => out = r.outward explicit scopes tags ∧
        Anchored r r' id (r.entryStops explicit scopes tags) ∧
        ∀ mark ∈ r.entryStops explicit scopes tags, r.Admits node.id mark)
      (fun _ r' => EntryRefused r r' node.id id (r.entryStops explicit scopes tags)) := by
  induction scopes generalizing r tags with
  | nil => exact ⟨rfl, .refl r id, by simp [entryStops]⟩
  | cons σ rest ih =>
    obtain ⟨hσ, hn⟩ := List.nodup_cons.1 hn
    unfold registerUp
    rw [Concludes.bind_iff]
    refine (registerIn_concludes (hs σ List.mem_cons_self) id node tags).mono ?_ ?_
    · rintro ⟨⟩ r₁ ⟨hfree, hmark⟩
      have hplace : Alike Scope.place r r₁ := hmark.alike.map_eq fun _ => rfl
      -- the scope is not passed again, so its mark is in nobody's way
      have hsame : ∀ mark ∈ r.entryStops explicit rest (r.handOn explicit σ tags),
          r₁.Admits node.id mark ↔ r.Admits node.id mark := fun mark hmem =>
        hmark.admits_iff mark fun heq => hσ (by
          have hmem := List.mem_map_of_mem (f := Prod.fst) hmem
          rwa [map_fst_entryStops, heq] at hmem)
      have hrest := ih (r := r₁) hn (fun τ hτ => by
        rw [← Option.isSome_map (f := Scope.idless), hmark.alike, Option.isSome_map]
        exact hs τ (List.mem_cons_of_mem σ hτ)) (r.handOn explicit σ tags)
      rw [entryStops_congr hplace, outward_congr fun τ _ => hplace τ] at hrest
      rw [Concludes.bind_iff, Concludes.get_iff]
      change Concludes (registerUp id node explicit rest (r₁.handOn explicit σ tags)) r₁ _ _
      rw [handOn_congr (hplace σ)]
      refine hrest.mono ?_ ?_
      · rintro out r' ⟨hout, hmarked, hadmits⟩
        refine ⟨hout, hmark.trans hmarked, fun mark hmem => ?_⟩
        rcases List.mem_cons.1 hmem with rfl | hmem
        · exact hfree
        · exact (hsame mark hmem).1 (hadmits mark hmem)
      · rintro err r' ⟨marks, stop, hhalts, hmarked⟩
        exact ⟨_, stop, hhalts.cons hfree hsame, hmark.trans hmarked⟩
    · rintro err r' ⟨htaken, rfl⟩
      exact ⟨[], _, .head htaken, .refl _ id⟩

/-- A labeled node was put into the index under some tags, and nothing else has changed. -/
structure Addressed (r r' : Registry) (node : Entry) (id : EntryId) (published : List String) :
    Prop where
  rest : r' = { r with index.addresses := r'.index.addresses }
  address : ∀ link, r'.address? link = if link ∈ published.map (linkOf node.document)
    then some ⟨node.document, link.anchor, .entry id⟩ else r.address? link

/-- An absolute tag leads to a labeled node. -/
def Leads (r : Registry) (tag : String) : Prop :=
  Path.isAbs tag = true ∧ ∃ address other, r.address? (.tag tag) = some address ∧
    address.target = .entry other

theorem Addressed.put (r : Registry) (node : Entry) (id : EntryId) (tag : String) :
    Addressed r { r with index.addresses := (linkOf node.document tag,
      ⟨node.document, tag, .entry id⟩) :: r.index.addresses } node id [tag] := by
  refine ⟨rfl, fun link => (lookup_cons_eq_ite _ link _ r.index.addresses).trans ?_⟩
  by_cases h : link = linkOf node.document tag
  · simp [h, anchor_linkOf]
  · simp [h, address?]

theorem Addressed.trans {published published' : List String}
    (h : Addressed r r' node id published) (h' : Addressed r' r'' node id published') :
    Addressed r r'' node id (published ++ published') where
  rest := by
    have heq := h'.rest
    rw [h.rest] at heq
    exact heq
  address link := by
    rw [h'.address, h.address, List.map_append]
    by_cases hm : link ∈ published.map (linkOf node.document) <;>
      by_cases hm' : link ∈ published'.map (linkOf node.document) <;>
      simp only [List.mem_append, hm, hm', or_true, or_false, if_true, if_false]

theorem registerAddress_concludes (id : EntryId) (node : Entry) (tag : String) (r : Registry) :
    Concludes (registerAddress id node tag) r (fun _ r' => Addressed r r' node id [tag])
      (fun _ r' => r.Leads tag ∧ r' = r) := by
  unfold registerAddress
  rw [Concludes.bind_iff, Concludes.get_iff]
  dsimp only
  split
  next document anchor other habs haddress =>
    rw [if_pos habs] at haddress
    exact ⟨⟨habs, _, other, haddress, rfl⟩, rfl⟩
  next => exact .put r node id tag

/-- A labeled node was put into the index under some of the tags, the next of which was taken. -/
def AddressRefusedIn (r r' : Registry) (node : Entry) (id : EntryId) (tags : List String) : Prop :=
  ∃ published tag rest, tags = published ++ tag :: rest ∧ Addressed r r' node id published ∧
    Path.isAbs tag = true ∧ (tag ∈ published ∨ r.Leads tag)

theorem registerAddresses_concludes (id : EntryId) (node : Entry) (tags : List String)
    (r : Registry) :
    Concludes (tags.forM (registerAddress id node)) r
      (fun _ r' => Addressed r r' node id tags)
      (fun _ r' => AddressRefusedIn r r' node id tags) := by
  induction tags generalizing r with
  | nil => exact ⟨rfl, fun _ => by simp⟩
  | cons tag rest ih =>
    change Concludes (registerAddress id node tag >>= fun _ => rest.forM (registerAddress id node))
      r _ _
    rw [Concludes.bind_iff]
    refine (registerAddress_concludes id node tag r).mono ?_ ?_
    · intro _ r₁ hput
      refine (ih r₁).mono (fun _ r' h => hput.trans h) ?_
      rintro err r' ⟨published, taken, behind, rfl, haddressed, habs, htaken⟩
      refine ⟨tag :: published, taken, behind, rfl, hput.trans haddressed, habs, ?_⟩
      rcases htaken with hmem | ⟨-, address, other, haddress, htarget⟩
      · exact .inl (List.mem_cons_of_mem tag hmem)
      · rw [hput.address] at haddress
        by_cases htag : Link.tag taken ∈ [tag].map (linkOf node.document)
        · refine .inl (List.mem_cons.2 (.inl ?_))
          rw [List.map_singleton, List.mem_singleton] at htag
          rw [← anchor_linkOf node.document tag, ← htag]
          rfl
        · rw [if_neg htag] at haddress
          exact .inr ⟨habs, address, other, haddress, htarget⟩
    · rintro err r' ⟨htaken, rfl⟩
      exact ⟨[], tag, rest, rfl, ⟨rfl, fun _ => by simp⟩, htaken.1, .inr htaken⟩

/-- A labeled node is new, it was registered in scopes at the stops `marks`, and in the index under
the tags `published`. Nothing else has changed. -/
structure EntryMarked (r r' : Registry) (node : Entry) (marks : List (ScopeId × List String))
    (published : List String) : Prop where
  alike : Alike Scope.idless r r'
  rest : r' = { r with
    scopes := r'.scopes, entries := r.entries.push node, index.addresses := r'.index.addresses }
  anchor : ∀ σ tag, (r'.scope? σ).bind (·.anchors.lookup tag) =
    if ∃ mark ∈ marks, mark.1 = σ ∧ tag ∈ mark.2 then some ⟨r.entries.size⟩
    else (r.scope? σ).bind (·.anchors.lookup tag)
  address : ∀ link, r'.address? link = if link ∈ published.map (linkOf node.document)
    then some ⟨node.document, link.anchor, .entry ⟨r.entries.size⟩⟩ else r.address? link

theorem Anchored.marked {published : List String}
    (h : Anchored { r with entries := r.entries.push node } r' ⟨r.entries.size⟩ entryMarks)
    (h' : Addressed r' r'' node ⟨r.entries.size⟩ published) :
    EntryMarked r r'' node entryMarks published := by
  have hscopes : r''.scopes = r'.scopes := congrArg (·.scopes) h'.rest
  have hrest := h'.rest
  rw [h.rest, ← hscopes] at hrest
  refine ⟨h.alike.trans (.of_scopes hscopes), hrest, fun σ tag => ?_, fun link => ?_⟩
  · rw [scope?, hscopes]
    exact h.anchor σ tag
  · rw [h'.address, h.rest]
    rfl

/-- Where the registration of a labeled node comes to an end: at a scope that is not free, or at an
absolute tag that is taken in the index or comes twice. -/
def EntryBlocked (r : Registry) (label : LabelId) (stops : List (ScopeId × List String))
    (out : List String) (marks : List (ScopeId × List String)) (published : List String) : Prop :=
  (∃ stop rest, stops = marks ++ stop :: rest ∧ ¬r.Admits label stop ∧ published = []) ∨
    (stops = marks ∧ ∃ tag rest, out = published ++ tag :: rest ∧ Path.isAbs tag = true ∧
      (tag ∈ published ∨ r.Leads tag))

/-- The names of tags and blocks are the same, and so are the scopes of documents. -/
structure EntryKept (r r' : Registry) : Prop where
  alike : Alike Scope.idless r r'
  tags : r'.index.tags = r.index.tags
  blocks : r'.index.blocks = r.index.blocks
  documents : r'.index.documents = r.index.documents

theorem EntryMarked.kept {published : List String}
    (h : EntryMarked r r' node entryMarks published) : EntryKept r r' where
  alike := h.alike
  tags := congrArg (·.index.tags) h.rest
  blocks := congrArg (·.index.blocks) h.rest
  documents := congrArg (·.index.documents) h.rest

/-- A labeled node is put to the others in any case. Then it is registered in the scopes and in the
index until one of them is taken. -/
theorem registerEntry_concludes (hn : (r.dynamicChain σ).Nodup)
    (hs : ∀ τ ∈ r.dynamicChain σ, (r.scope? τ).isSome) (node : Entry) (tags : List String)
    (explicit : Bool) :
    Concludes (registerEntry σ node tags explicit) r (fun _ r' => EntryKept r r')
      (fun _ r' => ∃ marks published, EntryMarked r r' node marks published ∧
        (∀ mark ∈ marks, r.Admits node.id mark) ∧
        r.EntryBlocked node.id (r.entryStops explicit (r.dynamicChain σ) tags)
          (r.outward explicit (r.dynamicChain σ) tags) marks published) := by
  have hpushed : Alike Scope.place r { r with entries := r.entries.push node } := .of_scopes rfl
  have hup := registerUp_concludes (r := { r with entries := r.entries.push node })
    ⟨r.entries.size⟩ node explicit hn hs tags
  rw [entryStops_congr hpushed, outward_congr fun τ _ => hpushed τ] at hup
  unfold registerEntry
  rw [Concludes.bind_iff, Concludes.get_iff]
  dsimp only
  rw [Concludes.bind_iff, Concludes.set_iff, Concludes.bind_iff]
  refine hup.mono ?_ ?_
  · rintro out r₁ ⟨rfl, hanchored, hadmits⟩
    rw [Concludes.bind_iff]
    refine (registerAddresses_concludes _ node _ r₁).mono ?_ ?_
    · intro _ r₂ haddressed
      have hkept := (hanchored.marked haddressed).kept
      rw [Concludes.bind_iff, Concludes.modify_iff, Concludes.bind_iff, Concludes.modify_iff,
        Concludes.pure_iff]
      -- the labeled nodes that stand for documents do not matter
      split
      · exact ⟨hkept.alike, hkept.tags, hkept.blocks, hkept.documents⟩
      · exact ⟨hkept.alike, hkept.tags, hkept.blocks, hkept.documents⟩
    · rintro err r' ⟨published, tag, rest, hsplit, haddressed, habs, htaken⟩
      refine ⟨_, published, hanchored.marked haddressed, hadmits, .inr ⟨rfl, tag, rest, hsplit,
        habs, htaken.imp_right ?_⟩⟩
      rw [hanchored.rest]
      exact id
  · rintro err r' ⟨marks, stop, ⟨⟨rest, hsplit⟩, hadmits, htaken⟩, hanchored⟩
    exact ⟨marks, [], hanchored.marked ⟨rfl, fun _ => by simp⟩, hadmits,
      .inl ⟨stop, rest, hsplit, htaken, rfl⟩⟩

end Registry

end Folio
