import Folio.Proofs.Scope.Attempts

/-!
# Terms of different documents

A tag of a node is known in the scopes that it passes, and then in the index of all documents.
There an absolute tag has the name that it comes with, and a relative one has its document and the
sign `#` in front (`Registry.tagKey`). Names of both sorts are texts of one table, and nothing keeps
them apart: `/a#t` may be a tag `t` of the document `/a` or an absolute tag.

Registrations from two documents come to one place only in the index
(`Registry.TriedDocuments.of_common_stop`). So one of them is refused because of the other only if
the names that the tags have there are the same, and then it is always refused. For documents and
absolute tags without the sign, this is for absolute tags that are equal
(`Registry.eq_of_tagKey_eq`).

What the index has is not replaced, so a relative tag that was accepted stands for the same node
from then on. But scopes are asked before the index, and a registration that was refused has left
its marks in them (`Registry.LeftBetween`). It then was for an absolute tag that is written like the
name of the relative one. There is none before, because an absolute tag that a scope knows is known
in the index, too (`Registry.Overt`).
-/

namespace Folio.Registry

variable {r r' r'' : Registry} {σ τ ρ : ScopeId} {typ tag name key document : String} {e : TagEntry}
  {explicit : Bool} {scopes : List ScopeId} {stop : Option ScopeId × String}

/-! ## Tags on their way -/

/-- A tag as it comes out of some scopes. -/
def tagBehind (r : Registry) (explicit : Bool) : List ScopeId → String → String
  | [], tag => tag
  | σ :: rest, tag =>
    match r.scope? σ with
    | none => tagBehind r explicit rest tag
    | some sc => tagBehind r explicit rest (if explicit then tag else sc.lift tag)

/-- A tag as it comes out of the document of a scope. -/
def tagOut (r : Registry) (σ : ScopeId) (explicit : Bool) (tag : String) : String :=
  r.tagBehind explicit (r.dynamicChain σ) tag

theorem lift_eq_of_isAbs (sc : Scope) (h : Path.isAbs tag = true) : sc.lift tag = tag := by
  rw [Scope.lift, if_pos (.inl h)]

/-- Absolute tags stay as they are. -/
theorem tagBehind_of_isAbs (h : Path.isAbs tag = true) (scopes : List ScopeId) :
    r.tagBehind explicit scopes tag = tag := by
  induction scopes with
  | nil => rfl
  | cons σ rest ih =>
    unfold tagBehind
    split
    · exact ih
    · rwa [lift_eq_of_isAbs _ h, ite_self]

theorem snd_eq_of_mem_tagStops (h : Path.isAbs tag = true)
    (hmem : stop ∈ r.tagStops explicit scopes document tag) : stop.2 = tag := by
  induction scopes generalizing document with
  | nil =>
    rw [tagStops, List.mem_singleton] at hmem
    rw [hmem, tagKey, if_pos h]
  | cons σ rest ih =>
    unfold tagStops at hmem
    split at hmem
    · exact ih hmem
    · rw [lift_eq_of_isAbs _ h, ite_self] at hmem
      rcases List.mem_cons.1 hmem with rfl | hmem
      · rfl
      · exact ih hmem

theorem exists_none_mem_tagStops (r : Registry) (explicit : Bool) (scopes : List ScopeId)
    (document tag : String) : ∃ key, (none, key) ∈ r.tagStops explicit scopes document tag := by
  induction scopes generalizing document tag with
  | nil => exact ⟨_, List.mem_singleton_self _⟩
  | cons σ rest ih =>
    unfold tagStops
    split
    · exact ih document tag
    · exact (ih _ _).imp fun _ => List.mem_cons_of_mem _

/-- A tag that is absolute at some scope stays so behind it, and comes out as it is. -/
theorem of_tagStops_eq_append {pre post : List (Option ScopeId × String)}
    (h : r.tagStops explicit scopes document tag = pre ++ (some ρ, name) :: post)
    (habs : Path.isAbs name = true) :
    (∀ s ∈ post, s.2 = name) ∧ (none, name) ∈ post ∧ r.tagBehind explicit scopes tag = name := by
  induction scopes generalizing document tag pre with
  | nil => cases pre <;> simp [tagStops] at h
  | cons σ rest ih =>
    cases hsc : r.scope? σ with
    | none =>
      simp only [tagStops, tagBehind, hsc] at h ⊢
      exact ih h
    | some sc =>
      simp only [tagStops, tagBehind, hsc] at h ⊢
      cases pre with
      | nil =>
        cases h
        rw [lift_eq_of_isAbs sc habs, ite_self]
        have hname : ∀ s ∈ r.tagStops explicit rest sc.document name, s.2 = name :=
          fun s => snd_eq_of_mem_tagStops habs
        obtain ⟨key, hkey⟩ := exists_none_mem_tagStops r explicit rest sc.document name
        cases hname _ hkey
        exact ⟨hname, hkey, tagBehind_of_isAbs habs rest⟩
      | cons mark pre => exact ih (List.cons.inj h).2

/-- The last stop is the index, where the tag comes with its document in front. -/
theorem none_mem_tagStops_iff
    (hd : ∀ τ ∈ scopes, ∀ sc, r.scope? τ = some sc → sc.document = document) :
    (none, key) ∈ r.tagStops explicit scopes document tag ↔
      key = tagKey document (r.tagBehind explicit scopes tag) := by
  induction scopes generalizing tag with
  | nil => simp [tagStops, tagBehind]
  | cons σ rest ih =>
    have hrest : ∀ t, (none, key) ∈ r.tagStops explicit rest document t ↔
        key = tagKey document (r.tagBehind explicit rest t) :=
      fun t => ih fun τ hτ => hd τ (List.mem_cons_of_mem σ hτ)
    cases hsc : r.scope? σ with
    | none =>
      simp only [tagStops, tagBehind, hsc]
      exact hrest tag
    | some sc =>
      simp only [tagStops, tagBehind, hsc, hd σ List.mem_cons_self sc hsc, ← hrest]
      simp

theorem Branching.none_mem_tagRoute_iff (h : r.Branching) {sc : Scope} (hσ : r.scope? σ = some sc) :
    (none, key) ∈ r.tagRoute σ explicit tag ↔
      key = tagKey sc.document (r.tagOut σ explicit tag) := by
  have hmem : ∀ τ ∈ r.dynamicChain σ, ∀ outer, r.scope? τ = some outer →
      outer.document = sc.document := fun τ hτ outer hout =>
    h.document_of_mem_dynamicChain hσ hτ hout
  obtain ⟨rest, hchain⟩ : ∃ rest, r.dynamicChain σ = σ :: rest :=
    exists_chain_eq (Option.isSome_iff_exists.2 ⟨sc, hσ⟩) Scope.parent
  rw [hchain] at hmem
  have hiff : (none, key) ∈ r.tagStops explicit (σ :: rest) sc.document tag ↔
      key = tagKey sc.document (r.tagBehind explicit (σ :: rest) tag) :=
    none_mem_tagStops_iff hmem
  -- the scope comes first, so it does not matter what document the way starts with
  rw [tagRoute, tagOut, hchain, ← hiff, tagStops, tagStops, hσ]

/-! ## What operations do to tags -/

theorem Alike.tagAt?_eq {erase : Scope → Scope} (h : Alike erase r r')
    (ht : ∀ sc, (erase sc).tags = sc.tags) (hindex : r'.index.tags = r.index.tags) (typ : String)
    (stop : Option ScopeId × String) : r'.tagAt? typ stop = r.tagAt? typ stop := by
  obtain ⟨_ | σ, name⟩ := stop
  · rw [tagAt?, tagAt?, hindex]
  · exact h.bind_eq (f := (·.tags.lookup (typ, name))) (fun sc => by rw [ht]) σ

/-- A new scope knows no tags. -/
theorem tagAt?_of_push {sc : Scope} (h : r'.scopes = r.scopes.push sc) (hsc : sc.tags = [])
    (hindex : r'.index.tags = r.index.tags) (typ : String) (stop : Option ScopeId × String) :
    r'.tagAt? typ stop = r.tagAt? typ stop := by
  obtain ⟨_ | τ, name⟩ := stop
  · rw [tagAt?, tagAt?, hindex]
  · rw [tagAt?, tagAt?, scope?_of_push h]
    split
    next hlast =>
      have hnone : r.scope? τ = none := by simp [scope?, hlast]
      rw [hnone, Option.bind_some, hsc]
      rfl
    · rfl

/-- Tags change only if a tag is registered or refused. -/
theorem Attempt.tag_cases (h : Attempt r r') (hr : r.Layered) :
    (∀ typ stop, r'.tagAt? typ stop = r.tagAt? typ stop) ∨ ∃ σ typ tag e explicit,
      (r.scope? σ).isSome ∧ Leaves (· = r') (registerTag σ typ tag e explicit) r := by
  rcases h.cases hr with ⟨sc, hscopes, -, hsc, hindex⟩ | hleaves | ⟨halike, hindex⟩
  · exact .inl (tagAt?_of_push hscopes hsc hindex)
  · exact .inr hleaves
  · exact .inl (halike.tagAt?_eq (fun _ => rfl) hindex)

/-- What a tag stands for does not change any more. -/
theorem Attempt.tagAt?_kept (h : Attempt r r') (hr : r.Layered)
    (he : r.tagAt? typ stop = some e) : r'.tagAt? typ stop = some e := by
  rcases h.tag_cases hr with hkeep | ⟨σ, t, tag, e', explicit, hσ, hleaves⟩
  · rw [hkeep, he]
  · obtain ⟨marks, -, hfree, htagged⟩ := hr.registerTag_tagged hσ hleaves
    rw [htagged.tag, if_neg, he]
    rintro ⟨rfl, hmem⟩
    cases he.symm.trans (hfree stop hmem)

theorem DocumentAttempts.tagAt?_kept (h : DocumentAttempts r r') (hr : r.Branching)
    (he : r.tagAt? typ stop = some e) : r'.tagAt? typ stop = some e := by
  induction h with
  | refl => exact he
  | tail hsome h ih =>
    exact h.attempt.tagAt?_kept (DocumentAttempts.branching hsome hr).layered ih

/-- An absolute tag that a scope knows is known in all documents, though it may stand for something
else there. -/
def Overt (r : Registry) : Prop :=
  ∀ typ σ tag, Path.isAbs tag = true → (r.tagAt? typ (some σ, tag)).isSome →
    (r.tagAt? typ (none, tag)).isSome

theorem Attempt.overt (h : Attempt r r') (hr : r.Layered) (ho : r.Overt) : r'.Overt := by
  intro typ ρ name habs hknown
  have hkept : (r.tagAt? typ (none, name)).isSome → (r'.tagAt? typ (none, name)).isSome := by
    intro hsome
    obtain ⟨e, he⟩ := Option.isSome_iff_exists.1 hsome
    rw [h.tagAt?_kept hr he]
    rfl
  rcases h.tag_cases hr with hkeep | ⟨σ, t, tag, e, explicit, hσ, hleaves⟩
  · rw [hkeep] at hknown
    exact hkept (ho typ ρ name habs hknown)
  · refine (registerTag_concludes (hr.nodup_dynamicChain hσ) t tag e explicit).elim hleaves ?_ ?_
    · rintro - ⟨htagged, -⟩
      by_cases hmark : typ = t ∧ (some ρ, name) ∈ r.tagStops explicit (r.dynamicChain σ) "" tag
      · obtain ⟨rfl, hmem⟩ := hmark
        obtain ⟨pre, post, hsplit⟩ := List.append_of_mem hmem
        have hindex : (none, name) ∈ r.tagStops explicit (r.dynamicChain σ) "" tag := by
          rw [hsplit]
          simp [(of_tagStops_eq_append hsplit habs).2.1]
        rw [htagged.tag, if_pos ⟨rfl, hindex⟩]
        rfl
      · rw [htagged.tag, if_neg hmark] at hknown
        exact hkept (ho typ ρ name habs hknown)
    · rintro err ⟨marks, stop, ⟨⟨rest, hsplit⟩, -, -⟩, htagged, first, text, hfirst, -⟩
      by_cases hmark : typ = t ∧ (some ρ, name) ∈ marks
      · -- the stop that is taken comes later, so it has the same name
        obtain ⟨rfl, hmem⟩ := hmark
        obtain ⟨pre, post, rfl⟩ := List.append_of_mem hmem
        rw [List.append_assoc, List.cons_append] at hsplit
        have hstop := (of_tagStops_eq_append hsplit habs).1 stop (by simp)
        have htaken : (r.tagAt? typ stop).isSome := by
          rw [hfirst]
          rfl
        obtain ⟨place, key⟩ := stop
        rw [show key = name from hstop] at htaken
        cases place with
        | none => exact hkept htaken
        | some τ => exact hkept (ho typ τ name habs htaken)
      · rw [htagged.tag, if_neg hmark] at hknown
        exact hkept (ho typ ρ name habs hknown)

theorem TriedDocuments.overt (h : r.TriedDocuments) : r.Overt := by
  obtain ⟨rootType, h⟩ := h
  induction h with
  | refl =>
    intro typ σ tag _ hknown
    simp [tagAt?, scope?] at hknown
  | tail hsome h ih => exact h.attempt.overt (TriedDocuments.branching ⟨rootType, hsome⟩).layered ih

/-! ## Where a tag is refused -/

/-- The first stop of a tag that has such a tag already. -/
def refusal? (r : Registry) (σ : ScopeId) (typ : String) (explicit : Bool) (tag : String) :
    Option (Option ScopeId × String) :=
  (r.tagRoute σ explicit tag).find? fun stop => (r.tagAt? typ stop).isSome

theorem Layered.refusal?_of_error (hr : r.Layered) (hσ : (r.scope? σ).isSome) {err : ResolveError}
    (h : registerTag σ typ tag e explicit r = .error err r') :
    ∃ stop first text, r.refusal? σ typ explicit tag = some stop ∧ r.tagAt? typ stop = some first ∧
      err = .located e.location (.duplicate .tag text first.location) := by
  obtain ⟨marks, stop, ⟨⟨rest, hsplit⟩, hfree, -⟩, -, first, text, hfirst, herr⟩ :=
    (registerTag_concludes (hr.nodup_dynamicChain hσ) typ tag e explicit).of_error h
  refine ⟨stop, first, text, ?_, hfirst, herr⟩
  have hmarks : marks.find? (fun stop => (r.tagAt? typ stop).isSome) = none :=
    List.find?_eq_none.2 fun mark hmem => by simp [hfree mark hmem]
  rw [refusal?, tagRoute, hsplit, List.find?_append, hmarks, Option.none_or,
    List.find?_cons_of_pos (by simp [hfirst])]

/-- A tag is refused if one of its stops is taken. -/
theorem Layered.exists_error (hr : r.Layered) (hσ : (r.scope? σ).isSome) (e : TagEntry)
    (hmem : stop ∈ r.tagRoute σ explicit tag) (htaken : (r.tagAt? typ stop).isSome) :
    ∃ err r', registerTag σ typ tag e explicit r = .error err r' := by
  cases h : registerTag σ typ tag e explicit r with
  | ok u r' =>
    have haccepted := (registerTag_concludes (hr.nodup_dynamicChain hσ) typ tag e explicit).of_ok h
    rw [haccepted.free stop hmem] at htaken
    cases htaken
  | error err r' => exact ⟨err, r', rfl⟩

theorem Branching.documentAttempt (hr : r.Branching) (hσ : (r.scope? σ).isSome)
    (h : Leaves (· = r') (registerTag σ typ tag e explicit) r) : DocumentAttempt r r' := by
  obtain ⟨marks, -, -, htagged⟩ := hr.layered.registerTag_tagged hσ h
  exact .other (.tag hσ h) htagged.alike.size_eq

/-! ## Names in the index -/

theorem tagKey_of_relative (document : String) (h : Path.isAbs tag = false) :
    tagKey document tag = document ++ "#" ++ tag := by
  rw [tagKey, h, if_neg Bool.false_ne_true]

theorem isAbs_qualified (h : Path.isAbs document = true) (tag : String) :
    Path.isAbs (document ++ "#" ++ tag) = true := by
  rw [String.append_assoc, Path.isAbs_append (Path.ne_empty_of_isAbs h), h]

/-- Neither a document nor an absolute tag contains the sign between the two. -/
def Unmarked (document tag : String) : Prop :=
  '#' ∉ document.toList ∧ (Path.isAbs tag = true → '#' ∉ tag.toList)

theorem append_cons_left_inj {α : Type} [DecidableEq α] {a : α} {xs ys zs ws : List α}
    (hx : a ∉ xs) (hy : a ∉ ys) (h : xs ++ a :: zs = ys ++ a :: ws) : xs = ys := by
  have htake : ∀ us vs : List α, a ∉ us → (us ++ a :: vs).takeWhile (· ≠ a) = us := by
    intro us vs hus
    rw [List.takeWhile_append_of_pos fun u hu => by simpa using fun heq : u = a => hus (heq ▸ hu)]
    simp
  rw [← htake xs zs hx, h, htake ys ws hy]

/-- Tags of two documents have the same name in the index only if they are absolute and equal. -/
theorem eq_of_tagKey_eq {document document' tag tag' : String} (hne : document' ≠ document)
    (hm : Unmarked document tag) (hm' : Unmarked document' tag')
    (h : tagKey document' tag' = tagKey document tag) : Path.isAbs tag = true ∧ tag' = tag := by
  unfold tagKey at h
  cases habs : Path.isAbs tag <;> cases habs' : Path.isAbs tag'
  · rw [habs, habs'] at h
    have hlist := congrArg String.toList h
    simp only [Bool.false_eq_true, if_false, String.toList_append, List.append_assoc] at hlist
    exact (hne (String.toList_inj.1 (append_cons_left_inj hm'.1 hm.1 hlist))).elim
  · rw [habs, habs', if_pos rfl, if_neg Bool.false_ne_true] at h
    refine (hm'.2 habs' ?_).elim
    rw [h]
    simp
  · rw [habs, habs', if_pos rfl, if_neg Bool.false_ne_true] at h
    refine (hm.2 habs ?_).elim
    rw [← h]
    simp
  · rw [habs, habs', if_pos rfl, if_pos rfl] at h
    exact ⟨rfl, h⟩

/-! ## Two registrations -/

variable {r₀ r₁ r₂ : Registry} {σ₁ σ₂ : ScopeId} {sc₁ sc₂ : Scope} {t₁ t₂ : String} {e₁ : TagEntry}
  {x₁ x₂ : Bool}

/-- Registrations from two documents come to one place only in the index. -/
theorem TriedDocuments.of_common_stop (h : r₀.TriedDocuments) (hσ₁ : r₀.scope? σ₁ = some sc₁)
    (hfirst : Leaves (· = r₁) (registerTag σ₁ typ t₁ e₁ x₁) r₀) (hlater : DocumentAttempts r₁ r₂)
    (hσ₂ : r₂.scope? σ₂ = some sc₂) (hne : sc₂.document ≠ sc₁.document)
    (hstop : stop ∈ r₂.tagRoute σ₂ x₂ t₂) (hfree : r₀.tagAt? typ stop = none)
    (htaken : (r₁.tagAt? typ stop).isSome) :
    stop = (none, tagKey sc₁.document (r₀.tagOut σ₁ x₁ t₁)) ∧
      tagKey sc₂.document (r₂.tagOut σ₂ x₂ t₂) = tagKey sc₁.document (r₀.tagOut σ₁ x₁ t₁) ∧
      r₁.tagAt? typ stop = some e₁ := by
  have hb := h.branching
  have hsome : (r₀.scope? σ₁).isSome := Option.isSome_iff_exists.2 ⟨sc₁, hσ₁⟩
  have hsteps : DocumentAttempts r₀ r₂ :=
    .head (hb.documentAttempt hsome hfirst) hlater
  have hb₂ := hsteps.branching hb
  obtain ⟨marks, hinit, -, htagged⟩ := hb.layered.registerTag_tagged hsome hfirst
  have hmark : stop ∈ marks := by
    by_contra hmem
    rw [htagged.tag.of_not_mem hmem, hfree] at htaken
    cases htaken
  have he : r₁.tagAt? typ stop = some e₁ := by rw [htagged.tag, if_pos ⟨rfl, hmark⟩]
  have hstop₁ := hinit.subset hmark
  obtain ⟨_ | τ, name⟩ := stop
  · have hkey := (hb.none_mem_tagRoute_iff hσ₁).1 hstop₁
    exact ⟨by rw [hkey], ((hb₂.none_mem_tagRoute_iff hσ₂).1 hstop).symm.trans hkey, he⟩
  · -- the scope would lie in both documents
    have hmem₁ := mem_of_mem_tagStops hstop₁
    obtain ⟨outer, hτ⟩ := Option.isSome_iff_exists.1
      (hb.layered.isSome_of_mem_dynamicChain hsome hmem₁)
    obtain ⟨outer', hτ', hplace⟩ := hsteps.place hb hτ
    refine (hne ?_).elim
    rw [← hb.document_of_mem_dynamicChain hσ₁ hmem₁ hτ,
      ← hb₂.document_of_mem_dynamicChain hσ₂ (mem_of_mem_tagStops hstop) hτ',
      Scope.document_eq_of_place hplace]

/-- A tag that comes out as `key` was refused between two registries, and since then it is known in
a scope under this name. -/
def LeftBetween (r r' : Registry) (typ key : String) (ρ : ScopeId) : Prop :=
  ∃ s s' σ tag e explicit err, DocumentAttempts r s ∧
    registerTag σ typ tag e explicit s = .error err s' ∧ DocumentAttempts s' r' ∧
    s.tagOut σ explicit tag = key ∧ s.tagAt? typ (some ρ, key) = none ∧
    (s'.tagAt? typ (some ρ, key)).isSome

/-- If the index has an absolute tag and a scope gets to know it later, it was refused. -/
theorem leftBetween (hb : r.Branching) (habs : Path.isAbs key = true)
    (hindex : r.tagAt? typ (none, key) = some e) (hnone : r.tagAt? typ (some ρ, key) = none)
    (h : DocumentAttempts r r') (hknown : (r'.tagAt? typ (some ρ, key)).isSome) :
    LeftBetween r r' typ key ρ := by
  induction h with
  | refl =>
    rw [hnone] at hknown
    cases hknown
  | @tail s s' hsteps hstep ih =>
    cases hs : s.tagAt? typ (some ρ, key) with
    | some first =>
      obtain ⟨u, u', σ, tag, e', explicit, err, hu, herr, hu', hrest⟩ := ih (by rw [hs]; rfl)
      exact ⟨u, u', σ, tag, e', explicit, err, hu, herr, hu'.tail hstep, hrest⟩
    | none =>
      have hl := (DocumentAttempts.branching hsteps hb).layered
      rcases hstep.attempt.tag_cases hl with hkeep | ⟨σ, t, tag, e', explicit, hσ, hleaves⟩
      · rw [hkeep, hs] at hknown
        cases hknown
      · obtain ⟨marks, hinit, hfree, htagged⟩ := hl.registerTag_tagged hσ hleaves
        obtain ⟨rfl, hmark⟩ : typ = t ∧ (some ρ, key) ∈ marks := by
          by_contra hmark
          rw [htagged.tag, if_neg hmark, hs] at hknown
          cases hknown
        obtain ⟨pre, post, hsplit⟩ := List.append_of_mem (hinit.subset hmark)
        obtain ⟨-, hlast, hout⟩ := of_tagStops_eq_append hsplit habs
        obtain ⟨u, hok⟩ | ⟨err, herr⟩ := hleaves.ok_or_error
        · -- the index is taken, so the tag cannot be accepted
          have haccepted := (registerTag_concludes (hl.nodup_dynamicChain hσ) typ tag e'
            explicit).of_ok hok
          have hmem : (none, key) ∈ s.tagRoute σ explicit tag := by
            rw [hsplit]
            simp [hlast]
          cases (haccepted.free _ hmem).symm.trans (DocumentAttempts.tagAt?_kept hsteps hb hindex)
        · exact ⟨s, s', σ, tag, e', explicit, err, hsteps, herr, .refl, hout, hs, hknown⟩

/-- What is found under an absolute name is what the index has, unless a scope knows the name. -/
theorem lookupTag_of_index (hindex : r.tagAt? typ (none, key) = some e) (τ : ScopeId) :
    r.lookupTag τ typ key = some e ∨
      ∃ ρ ∈ r.staticChain τ, (r.tagAt? typ (some ρ, key)).isSome := by
  cases hfind : r.findStatic τ (·.tags.lookup (typ, key)) with
  | none =>
    left
    rw [lookupTag, hfind, Option.none_or]
    exact hindex
  | some first =>
    obtain ⟨ρ, hρ, hat⟩ := List.exists_of_findSome?_eq_some hfind
    exact .inr ⟨ρ, hρ, Option.isSome_iff_exists.2 ⟨first, hat⟩⟩

/-- A registration from another document is refused because of an earlier one only if their tags
have the same name in the index. If no document and no absolute tag contains the sign between the
two, this is for absolute tags that are equal. A relative tag that was accepted is found from
everywhere under its document and its name, but where a refused one was written just like that. -/
theorem TriedDocuments.registerTag_apart (h : r₀.TriedDocuments) (hσ₁ : r₀.scope? σ₁ = some sc₁)
    (hfirst : Leaves (· = r₁) (registerTag σ₁ typ t₁ e₁ x₁) r₀)
    (hlater : DocumentAttempts r₁ r₂) :
    (∀ σ₂ sc₂ t₂ e₂ x₂ err r₃ stop, r₂.scope? σ₂ = some sc₂ → sc₂.document ≠ sc₁.document →
      registerTag σ₂ typ t₂ e₂ x₂ r₂ = .error err r₃ → r₂.refusal? σ₂ typ x₂ t₂ = some stop →
      r₀.tagAt? typ stop = none → (r₁.tagAt? typ stop).isSome →
      (∃ text, err = .located e₂.location (.duplicate .tag text e₁.location)) ∧
      tagKey sc₂.document (r₂.tagOut σ₂ x₂ t₂) = tagKey sc₁.document (r₀.tagOut σ₁ x₁ t₁) ∧
      (Unmarked sc₁.document (r₀.tagOut σ₁ x₁ t₁) → Unmarked sc₂.document (r₂.tagOut σ₂ x₂ t₂) →
        Path.isAbs (r₀.tagOut σ₁ x₁ t₁) = true ∧
          r₂.tagOut σ₂ x₂ t₂ = r₀.tagOut σ₁ x₁ t₁)) ∧
    (registerTag σ₁ typ t₁ e₁ x₁ r₀ = .ok ⟨⟩ r₁ →
      r₂.tagAt? typ (none, tagKey sc₁.document (r₀.tagOut σ₁ x₁ t₁)) = some e₁ ∧
      (∀ σ₂ sc₂ t₂ e₂ x₂, r₂.scope? σ₂ = some sc₂ →
        tagKey sc₂.document (r₂.tagOut σ₂ x₂ t₂) = tagKey sc₁.document (r₀.tagOut σ₁ x₁ t₁) →
        ∃ err r₃, registerTag σ₂ typ t₂ e₂ x₂ r₂ = .error err r₃) ∧
      (Path.isAbs (r₀.tagOut σ₁ x₁ t₁) = false → ∀ τ,
        r₂.lookupTag τ typ (sc₁.document ++ "#" ++ r₀.tagOut σ₁ x₁ t₁) = some e₁ ∨
        ∃ ρ ∈ r₂.staticChain τ,
          LeftBetween r₁ r₂ typ (sc₁.document ++ "#" ++ r₀.tagOut σ₁ x₁ t₁) ρ)) := by
  have hb := h.branching
  have hsome : (r₀.scope? σ₁).isSome := Option.isSome_iff_exists.2 ⟨sc₁, hσ₁⟩
  have hstep := hb.documentAttempt hsome hfirst
  have hb₁ := hstep.branching hb
  have hb₂ := hlater.branching hb₁
  refine ⟨?_, fun hok => ?_⟩
  · intro σ₂ sc₂ t₂ e₂ x₂ err r₃ stop hσ₂ hne herr hrefusal hfree htaken
    obtain ⟨stop', first, text, hrefusal', hfirst', rfl⟩ :=
      hb₂.layered.refusal?_of_error (Option.isSome_iff_exists.2 ⟨sc₂, hσ₂⟩) herr
    cases hrefusal.symm.trans hrefusal'
    obtain ⟨-, hkey, he⟩ := h.of_common_stop hσ₁ hfirst hlater hσ₂ hne
      (List.mem_of_find?_eq_some hrefusal) hfree htaken
    cases (hlater.tagAt?_kept hb₁ he).symm.trans hfirst'
    exact ⟨⟨text, rfl⟩, hkey, fun hm₁ hm₂ => eq_of_tagKey_eq hne hm₁ hm₂ hkey⟩
  · have haccepted := (registerTag_concludes (hb.layered.nodup_dynamicChain hsome) typ t₁ e₁
      x₁).of_ok hok
    have hstop : (none, tagKey sc₁.document (r₀.tagOut σ₁ x₁ t₁)) ∈ r₀.tagRoute σ₁ x₁ t₁ :=
      (hb.none_mem_tagRoute_iff hσ₁).2 rfl
    have hindex₁ : r₁.tagAt? typ (none, tagKey sc₁.document (r₀.tagOut σ₁ x₁ t₁)) = some e₁ := by
      rw [haccepted.tagged.tag, if_pos ⟨rfl, hstop⟩]
    have hindex₂ := hlater.tagAt?_kept hb₁ hindex₁
    refine ⟨hindex₂, fun σ₂ sc₂ t₂ e₂ x₂ hσ₂ hkey => ?_, fun hrel τ => ?_⟩
    · refine hb₂.layered.exists_error (Option.isSome_iff_exists.2 ⟨sc₂, hσ₂⟩) e₂
        ((hb₂.none_mem_tagRoute_iff hσ₂).2 hkey.symm) ?_
      rw [hindex₂]
      rfl
    · have hkey := tagKey_of_relative sc₁.document hrel
      have habs := isAbs_qualified (hb.isAbs σ₁ sc₁ hσ₁) (r₀.tagOut σ₁ x₁ t₁)
      rw [hkey] at hindex₁ hindex₂ hstop
      have hnone : ∀ ρ, r₁.tagAt? typ
          (some ρ, sc₁.document ++ "#" ++ r₀.tagOut σ₁ x₁ t₁) = none := fun ρ => by
        rw [haccepted.tagged.tag.of_not_mem fun hmem => ?_]
        · -- the index would have known the name too
          have hknown := h.overt typ ρ _ habs
          rw [haccepted.free _ hstop] at hknown
          simpa using hknown
        · obtain ⟨pre, post, hsplit⟩ := List.append_of_mem hmem
          obtain ⟨-, -, hout⟩ := of_tagStops_eq_append hsplit habs
          rw [← hout] at habs
          cases habs.symm.trans hrel
      refine (lookupTag_of_index hindex₂ τ).imp_right ?_
      rintro ⟨ρ, hρ, hknown⟩
      exact ⟨ρ, hρ, leftBetween hb₁ habs hindex₁ (hnone ρ) hlater hknown⟩

/-- Two documents, the second with the sign in its path. -/
def markedDocuments : Registry :=
  ((({ rootType := "section" } : Registry).addDocument "/c").2.addDocument "/c#").2

theorem markedDocuments_tried : markedDocuments.TriedDocuments :=
  ⟨"section", .tail (.tail .refl (.document (by decide +kernel) rfl))
    (.document (by decide +kernel) rfl)⟩

/-- A term of the first document. -/
def markedTerm : TagEntry := ⟨⟨0⟩, ⟨"/c", 0⟩, ⟨"/c", 1, 0⟩⟩

/-- A term of the second document. -/
def plainTerm : TagEntry := ⟨⟨1⟩, ⟨"/c#", 0⟩, ⟨"/c#", 1, 0⟩⟩

/-- The first document has a term with the sign in its tag, and the second one cannot have one that
is tagged `x`. -/
theorem exists_markedTerm : ∃ r err r', registerTag ⟨0⟩ "term" "#x" markedTerm false
      markedDocuments = .ok ⟨⟩ r ∧
    r.scope? ⟨1⟩ = some ⟨"", "", "/c#", none, none, [], [], [], [], [], [], []⟩ ∧
    registerTag ⟨1⟩ "term" "x" plainTerm false r = .error err r' ∧
    r.refusal? ⟨1⟩ "term" false "x" = some (none, "/c##x") ∧
    (r.tagAt? "term" (none, "/c##x")).isSome := by
  obtain ⟨u, r, hok, hscope, hrefusal, htaken, hfails⟩ := exists_ok_and
    (P := fun _ r => r.scope? ⟨1⟩ = some ⟨"", "", "/c#", none, none, [], [], [], [], [], [], []⟩ ∧
      r.refusal? ⟨1⟩ "term" false "x" = some (none, "/c##x") ∧
      (r.tagAt? "term" (none, "/c##x")).isSome ∧
      (match registerTag ⟨1⟩ "term" "x" plainTerm false r with
        | .ok .. => false | .error .. => true) = true)
    (m := registerTag ⟨0⟩ "term" "#x" markedTerm false) (s := markedDocuments) (by decide +kernel)
  cases herr : registerTag ⟨1⟩ "term" "x" plainTerm false r with
  | ok u r' => simp [herr] at hfails
  | error err r' => exact ⟨r, err, r', hok, hscope, herr, hrefusal, htaken⟩

/-- The terms `#x` of `/c` and `x` of `/c#` have one name in the index, so the second is refused. -/
theorem registerTag_apart_markedTerm : markedDocuments.TriedDocuments ∧
    ∃ r, registerTag ⟨0⟩ "term" "#x" markedTerm false markedDocuments = .ok ⟨⟩ r ∧
      r.tagAt? "term" (none, "/c##x") = some markedTerm ∧
      ∃ text r', registerTag ⟨1⟩ "term" "x" plainTerm false r =
        .error (.located ⟨"/c#", 1, 0⟩ (.duplicate .tag text ⟨"/c", 1, 0⟩)) r' := by
  obtain ⟨r, err, r', hok, hscope, herr, hrefusal, htaken⟩ := exists_markedTerm
  have htop : markedDocuments.scope? ⟨0⟩ =
      some ⟨"", "", "/c", none, none, [], [], [], [], [], [], []⟩ := rfl
  have hkey : tagKey "/c" (markedDocuments.tagOut ⟨0⟩ false "#x") = "/c##x" := by decide +kernel
  obtain ⟨hrefused, haccepted⟩ :=
    markedDocuments_tried.registerTag_apart htop (.of_ok hok rfl) .refl
  obtain ⟨hindex, -, -⟩ := haccepted hok
  obtain ⟨⟨text, rfl⟩, -, -⟩ := hrefused ⟨1⟩ _ "x" plainTerm false err r' _ hscope (by decide) herr
    hrefusal rfl htaken
  exact ⟨markedDocuments_tried, r, hok, hkey ▸ hindex, text, r', herr⟩

/-- Terms of two documents can clash, though neither of them is absolute. -/
theorem not_forall_registerTag_apart : ¬∀ (r₀ r₁ r₂ r₃ : Registry) (σ₁ σ₂ : ScopeId)
    (sc₁ sc₂ : Scope) (typ t₁ t₂ : String) (e₁ e₂ : TagEntry) (x₁ x₂ : Bool) (err : ResolveError)
    (stop : Option ScopeId × String), r₀.TriedDocuments → r₀.scope? σ₁ = some sc₁ →
    Leaves (· = r₁) (registerTag σ₁ typ t₁ e₁ x₁) r₀ → DocumentAttempts r₁ r₂ →
    r₂.scope? σ₂ = some sc₂ → sc₂.document ≠ sc₁.document →
    registerTag σ₂ typ t₂ e₂ x₂ r₂ = .error err r₃ → r₂.refusal? σ₂ typ x₂ t₂ = some stop →
    r₀.tagAt? typ stop = none → (r₁.tagAt? typ stop).isSome →
    Path.isAbs t₁ = true ∧ Path.isAbs t₂ = true ∧ t₁ = t₂ := by
  intro h
  obtain ⟨r, err, r', hok, hscope, herr, hrefusal, htaken⟩ := exists_markedTerm
  have heq := h markedDocuments r r r' ⟨0⟩ ⟨1⟩ _ _ "term" "#x" "x" markedTerm plainTerm false false
    err _ markedDocuments_tried rfl (.of_ok hok rfl) .refl hscope (by decide) herr hrefusal rfl
    htaken
  exact absurd heq.2.2 (by decide)

end Folio.Registry
