import Folio.Proofs.Resolution.Catalog
import Folio.Proofs.Resolution.Proper
import Folio.Resolution.Report
import Mathlib.Data.List.Chain
import Mathlib.Data.List.TakeWhile

/-!
# The order of documents

Requests and embeddings are two views of one relation: a document is embedded by another one
exactly if it is the target of one of its requests. `Arranged` states that for a resolution.
Following the embeddings upwards ends at a root; `Rooted` is this path, and `Routed` says that
every document has one.

Both hold after the second phase (`resolveStructure_ends`, `orderDocuments_ends`), which changes
nothing else. Looking for targets fails only for what a document did, and following the embeddings
only at a cycle, which is then reported (`Resolution.ReportsCycle`).
-/

namespace Folio

open Resolution

namespace Resolution

/-- The document that an embedding asks for. -/
def targetOf (s : Resolution) (link : Link) : String :=
  match link with
  | .tag _ => ((s.registry.address? link).map Address.document).getD ""
  | .place path _ => path

/-- Information on documents changes in what concerns their embedding. -/
structure Reordered (s s' : Resolution) : Prop where
  same : s' = { s with documents := s'.documents }
  keys : s'.documents.keys = s.documents.keys
  info : ∀ d info, s.info? d = some info → ∃ requests embeddedBy,
    s'.info? d = some { info with requests, embeddedBy } ∧
    requests.map (fun r => (r.link, r.location)) =
      info.requests.map fun r => (r.link, r.location)

namespace Reordered

variable {s s' s'' : Resolution}

theorem refl (s : Resolution) : s.Reordered s :=
  ⟨rfl, rfl, fun _ info h => ⟨info.requests, info.embeddedBy, h, rfl⟩⟩

theorem trans (h : s.Reordered s') (h' : s'.Reordered s'') : s.Reordered s'' := by
  refine ⟨?_, h'.keys.trans h.keys, fun d info hd => ?_⟩
  · rw [h'.same, h.same]
  · obtain ⟨requests, embeddedBy, hd', hr⟩ := h.info d info hd
    obtain ⟨requests', embeddedBy', hd'', hr'⟩ := h'.info d _ hd'
    exact ⟨requests', embeddedBy', hd'', hr'.trans hr⟩

theorem modifyInfo (s : Resolution) (d : String) (f : DocumentInfo → DocumentInfo)
    (hf : ∀ info, s.info? d = some info → ∃ requests embeddedBy,
      f info = { info with requests, embeddedBy } ∧
      requests.map (fun r => (r.link, r.location)) =
        info.requests.map fun r => (r.link, r.location)) : s.Reordered (s.modifyInfo d f) := by
  refine ⟨rfl, keys_modifyInfo .., fun e info he => ?_⟩
  rw [info?_modifyInfo, he]
  split
  next hed =>
    obtain ⟨requests, embeddedBy, hfi, hr⟩ := hf info (hed ▸ he)
    exact ⟨requests, embeddedBy, by rw [Option.map_some, hfi], hr⟩
  · exact ⟨info.requests, info.embeddedBy, rfl, rfl⟩

theorem targetOf (h : s.Reordered s') (link : Link) : s'.targetOf link = s.targetOf link := by
  rw [h.same]
  rfl

theorem keeps (h : s.Reordered s') : s.Keeps s' := by
  rw [h.same]
  exact ⟨rfl, (Keeps.refl s).frame, (Keeps.refl s).entry, (Keeps.refl s).fixed⟩

end Reordered

end Resolution

/-- A document is embedded exactly if it is the target of a request. -/
structure Arranged (s : Resolution) : Prop where
  embedded : ∀ d info p location, s.info? d = some info → info.embeddedBy = some (p, location) →
    ∃ outer r, s.info? p = some outer ∧ r ∈ outer.requests ∧ r.target = some d ∧
      r.location = location
  target : ∀ p outer r, s.info? p = some outer → r ∈ outer.requests → ∃ d info,
    r.target = some d ∧ d = s.targetOf r.link ∧ s.info? d = some info ∧
      info.embeddedBy = some (p, r.location)
  nodup : ∀ p outer, s.info? p = some outer → (outer.requests.map EmbeddingRequest.target).Nodup

namespace Run

/-- The requests of some documents are resolved already, `answers` of those of the document
`source`, and all other ones are as they were in `s₀`. -/
structure Arranging (s₀ : Resolution) (done : List String) (source : String)
    (answers : List EmbeddingRequest) (s : Resolution) : Prop where
  reordered : s₀.Reordered s
  embedded : ∀ d info p location, s.info? d = some info → info.embeddedBy = some (p, location) →
    (p ∈ done ∧ ∃ outer r, s.info? p = some outer ∧ r ∈ outer.requests ∧ r.target = some d ∧
      r.location = location) ∨
    (p = source ∧ ∃ r ∈ answers, r.target = some d ∧ r.location = location)
  target : ∀ p ∈ done, ∀ outer, s.info? p = some outer → ∀ r ∈ outer.requests, ∃ d info,
    r.target = some d ∧ d = s.targetOf r.link ∧ s.info? d = some info ∧
      info.embeddedBy = some (p, r.location)
  answer : ∀ r ∈ answers, ∃ d info, r.target = some d ∧ d = s.targetOf r.link ∧
    s.info? d = some info ∧ info.embeddedBy = some (source, r.location)
  nodup : ∀ p ∈ done, ∀ outer, s.info? p = some outer →
    (outer.requests.map EmbeddingRequest.target).Nodup
  nodup_answers : (answers.map EmbeddingRequest.target).Nodup
  rest : ∀ p, p ∉ done → ∀ outer, s.info? p = some outer →
    ∃ outer₀, s₀.info? p = some outer₀ ∧ outer.requests = outer₀.requests

/-- A document that nobody embedded is embedded by `origin` now. -/
structure Embedded (s s' : Resolution) (d : String) (info : DocumentInfo)
    (origin : String × Location) : Prop where
  same : s' = s.modifyInfo d fun info => { info with embeddedBy := some origin }
  before : s.info? d = some info
  unembedded : info.embeddedBy = none

namespace Embedded

variable {s s' : Resolution} {d : String} {info : DocumentInfo} {origin : String × Location}

theorem info?_self (h : Embedded s s' d info origin) :
    s'.info? d = some { info with embeddedBy := some origin } := by
  rw [h.same, info?_modifyInfo, if_pos rfl, h.before, Option.map_some]

theorem info?_other (h : Embedded s s' d info origin) {e : String} (he : e ≠ d) :
    s'.info? e = s.info? e := by
  rw [h.same, info?_modifyInfo, if_neg he]

theorem reordered (h : Embedded s s' d info origin) : s.Reordered s' := by
  rw [h.same]
  exact .modifyInfo s d _ fun info _ => ⟨info.requests, _, rfl, rfl⟩

theorem ne (h : Embedded s s' d info origin) {e : String} {outer : DocumentInfo}
    (he : s.info? e = some outer) (hsome : outer.embeddedBy.isSome) : e ≠ d := by
  rintro rfl
  cases h.before.symm.trans he
  simp [h.unembedded] at hsome

/-- What is embedded already is known as before. -/
theorem info?_of_isSome (h : Embedded s s' d info origin) {e : String} {outer : DocumentInfo}
    (he : s.info? e = some outer) (hsome : outer.embeddedBy.isSome) : s'.info? e = some outer :=
  (h.info?_other (h.ne he hsome)).trans he

theorem requests (h : Embedded s s' d info origin) {e : String} {outer : DocumentInfo}
    (he : s'.info? e = some outer) :
    ∃ outer₀, s.info? e = some outer₀ ∧ outer.requests = outer₀.requests := by
  by_cases hed : e = d
  · subst hed
    cases h.info?_self.symm.trans he
    exact ⟨info, h.before, rfl⟩
  · exact ⟨outer, (h.info?_other hed).symm.trans he, rfl⟩

end Embedded

/-- The next request has found its document. -/
theorem Arranging.embed {s₀ s s' : Resolution} {done : List String} {source d : String}
    {answers : List EmbeddingRequest} {request : EmbeddingRequest} {info : DocumentInfo}
    (h : Arranging s₀ done source answers s) (hd : d = s.targetOf request.link)
    (he : Embedded s s' d info (source, request.location)) :
    Arranging s₀ done source (answers ++ [{ request with target := some d }]) s' where
  reordered := h.reordered.trans he.reordered
  embedded e info' p location hinfo hp := by
    by_cases hed : e = d
    · subst hed
      cases he.info?_self.symm.trans hinfo
      cases hp
      exact .inr ⟨rfl, _, List.mem_append_right _ (List.mem_singleton_self _), rfl, rfl⟩
    · rcases h.embedded e info' p location ((he.info?_other hed).symm.trans hinfo) hp with
        ⟨hp, outer, r, houter, hr, hrest⟩ | ⟨rfl, r, hr, hrest⟩
      · obtain ⟨requests, embeddedBy, houter', -⟩ := he.reordered.info p outer houter
        obtain ⟨outer₀, houter₀, heq⟩ := he.requests houter'
        cases houter.symm.trans houter₀
        exact .inl ⟨hp, _, r, houter', heq ▸ hr, hrest⟩
      · exact .inr ⟨rfl, r, List.mem_append_left _ hr, hrest⟩
  target p hp outer houter r hr := by
    obtain ⟨outer₀, houter₀, heq⟩ := he.requests houter
    obtain ⟨e, info', hrt, het, hinfo, hep⟩ := h.target p hp outer₀ houter₀ r (heq ▸ hr)
    exact ⟨e, info', hrt, het.trans (he.reordered.targetOf _).symm,
      he.info?_of_isSome hinfo (by simp [hep]), hep⟩
  answer r hr := by
    rcases List.mem_append.1 hr with hr | hr
    · obtain ⟨e, info', hrt, het, hinfo, hep⟩ := h.answer r hr
      exact ⟨e, info', hrt, het.trans (he.reordered.targetOf _).symm,
        he.info?_of_isSome hinfo (by simp [hep]), hep⟩
    · cases List.mem_singleton.1 hr
      exact ⟨d, _, rfl, hd.trans (he.reordered.targetOf _).symm, he.info?_self, rfl⟩
  nodup p hp outer houter := by
    obtain ⟨outer₀, houter₀, heq⟩ := he.requests houter
    exact heq ▸ h.nodup p hp outer₀ houter₀
  nodup_answers := by
    rw [List.map_append]
    refine List.nodup_append.2 ⟨h.nodup_answers, by simp, ?_⟩
    rintro a ha b hb rfl
    obtain ⟨r, hr, rfl⟩ := List.mem_map.1 ha
    obtain ⟨e, info', hrt, -, hinfo, hep⟩ := h.answer r hr
    simp only [List.map_cons, List.map_nil, List.mem_singleton, hrt, Option.some.injEq] at hb
    exact he.ne hinfo (by simp [hep]) hb
  rest p hp outer houter := by
    obtain ⟨outer', houter', heq⟩ := he.requests houter
    obtain ⟨outer₀, houter₀, heq'⟩ := h.rest p hp outer' houter'
    exact ⟨outer₀, houter₀, heq.trans heq'⟩

theorem resolveRequest_ends {s₀ s : Resolution} {done : List String} {source : String}
    {answers : List EmbeddingRequest} (h : Arranging s₀ done source answers s)
    (request : EmbeddingRequest) :
    Ends ResolveError.External (resolveRequest source request) s fun r s' =>
      Arranging s₀ done source (answers ++ [r]) s' ∧ r.link = request.link ∧
        r.location = request.location := by
  unfold resolveRequest
  rw [Ends.bind_iff, Ends.get_iff]
  change Ends ResolveError.External (Run.orFail _ _ (s.info? (s.targetOf request.link)) >>= _) s _
  rw [Ends.bind_iff, ends_orFail_iff]
  refine ⟨fun info hinfo => ?_, fun _ => id⟩
  cases hby : info.embeddedBy with
  | some by' => exact id
  | none =>
    dsimp only
    split
    · exact id
    rw [Ends.bind_iff, Ends.set_iff, Ends.pure_iff]
    exact ⟨h.embed rfl ⟨rfl, hinfo, hby⟩, rfl, rfl⟩

/-- A document without information has no requests. -/
theorem Arranging.skip {s₀ s : Resolution} {done : List String} {source : String}
    (h : Arranging s₀ done source [] s) (hs : s.info? source = none) (next : String) :
    Arranging s₀ (done ++ [source]) next [] s where
  reordered := h.reordered
  embedded d info p location hd hp := by
    rcases h.embedded d info p location hd hp with ⟨hp, hrest⟩ | ⟨-, r, hr, -⟩
    · exact .inl ⟨List.mem_append_left _ hp, hrest⟩
    · simp at hr
  target p hp outer houter := by
    rcases List.mem_append.1 hp with hp | hp
    · exact h.target p hp outer houter
    · cases List.mem_singleton.1 hp
      simp [hs] at houter
  answer := by simp
  nodup p hp outer houter := by
    rcases List.mem_append.1 hp with hp | hp
    · exact h.nodup p hp outer houter
    · cases List.mem_singleton.1 hp
      simp [hs] at houter
  nodup_answers := by simp
  rest p hp := h.rest p fun hp' => hp (List.mem_append_left _ hp')

/-- The answers of a document become its requests. -/
theorem Arranging.finish {s₀ s : Resolution} {done : List String} {source : String}
    {answers : List EmbeddingRequest} (h : Arranging s₀ done source answers s)
    (hs : source ∉ done) {info₀ : DocumentInfo} (hinfo₀ : s₀.info? source = some info₀)
    (hmap : answers.map (fun r => (r.link, r.location)) =
      info₀.requests.map fun r => (r.link, r.location)) (next : String) :
    Arranging s₀ (done ++ [source]) next []
      (s.modifyInfo source fun info => { info with requests := answers }) := by
  set s' := s.modifyInfo source fun info => { info with requests := answers } with hs'
  have hre : s.Reordered s' := .modifyInfo s source _ fun info hinfo => by
    obtain ⟨outer₀, houter₀, heq⟩ := h.rest source hs info hinfo
    cases hinfo₀.symm.trans houter₀
    exact ⟨answers, info.embeddedBy, rfl, by rw [hmap, heq]⟩
  have hself : ∀ {p outer}, s'.info? p = some outer → p = source → outer.requests = answers := by
    rintro p outer hp rfl
    rw [hs', info?_modifyInfo, if_pos rfl] at hp
    obtain ⟨info, -, rfl⟩ := Option.map_eq_some_iff.1 hp
    rfl
  have hother : ∀ p, p ≠ source → s'.info? p = s.info? p := fun p hp => by
    rw [hs', info?_modifyInfo, if_neg hp]
  have hdone : ∀ {p}, p ∈ done → p ≠ source := fun hp heq => hs (heq ▸ hp)
  have hlift : ∀ {d info}, s.info? d = some info →
      ∃ info', s'.info? d = some info' ∧ info'.embeddedBy = info.embeddedBy := by
    intro d info hd
    rw [hs', info?_modifyInfo, hd]
    split
    · exact ⟨_, rfl, rfl⟩
    · exact ⟨_, rfl, rfl⟩
  have hby : ∀ {d info'}, s'.info? d = some info' →
      ∃ info, s.info? d = some info ∧ info.embeddedBy = info'.embeddedBy := by
    intro d info' hd
    by_cases hds : d = source
    · rw [hs', info?_modifyInfo, if_pos hds] at hd
      obtain ⟨info, hinfo, rfl⟩ := Option.map_eq_some_iff.1 hd
      exact ⟨info, hinfo, rfl⟩
    · exact ⟨info', (hother d hds).symm.trans hd, rfl⟩
  refine ⟨h.reordered.trans hre, ?embedded, ?target, by simp, ?nodup, by simp, ?rest⟩
  case embedded =>
    intro d info' p location hd hp
    obtain ⟨info, hinfo, heq⟩ := hby hd
    rcases h.embedded d info p location hinfo (heq.trans hp) with
      ⟨hp, outer, r, houter, hr, hrest⟩ | ⟨rfl, r, hr, hrest⟩
    · exact .inl ⟨List.mem_append_left _ hp, outer, r, (hother p (hdone hp)).trans houter, hr,
        hrest⟩
    · obtain ⟨requests, embeddedBy, hsource, -⟩ := (h.reordered.trans hre).info p info₀ hinfo₀
      exact .inl ⟨by simp, _, r, hsource, by rwa [← hself hsource rfl] at hr, hrest⟩
  case target =>
    intro p hp outer houter r hr
    have hr' : ∃ d info, r.target = some d ∧ d = s.targetOf r.link ∧ s.info? d = some info ∧
        info.embeddedBy = some (p, r.location) := by
      rcases List.mem_append.1 hp with hp | hp
      · exact h.target p hp outer ((hother p (hdone hp)).symm.trans houter) r hr
      · cases List.mem_singleton.1 hp
        exact h.answer r (hself houter rfl ▸ hr)
    obtain ⟨d, info, hrt, hdt, hd, hdp⟩ := hr'
    obtain ⟨info', hd', hby'⟩ := hlift hd
    exact ⟨d, info', hrt, hdt.trans (hre.targetOf _).symm, hd', hby'.trans hdp⟩
  case nodup =>
    intro p hp outer houter
    rcases List.mem_append.1 hp with hp | hp
    · exact h.nodup p hp outer ((hother p (hdone hp)).symm.trans houter)
    · cases List.mem_singleton.1 hp
      exact hself houter rfl ▸ h.nodup_answers
  case rest =>
    intro p hp outer houter
    have hps : p ≠ source := fun heq => hp (by simp [heq])
    exact h.rest p (fun hp' => hp (List.mem_append_left _ hp')) outer
      ((hother p hps).symm.trans houter)

/-- Resolving all requests of a document. -/
theorem resolveRequests_ends {s₀ s : Resolution} {done : List String} {source : String}
    (hs : source ∉ done) (h : ∀ source, Arranging s₀ done source [] s) :
    Ends ResolveError.External (do
      match (← get).info? source with
      | none => return
      | some info =>
        let requests ← info.requests.mapM (resolveRequest source)
        modify (·.modifyInfo source fun info => { info with requests }) : Run Unit) s
      fun _ s' => ∀ next, Arranging s₀ (done ++ [source]) next [] s' := by
  rw [Ends.bind_iff, Ends.get_iff]
  cases hinfo : s.info? source with
  | none => exact fun next => (h source).skip hinfo next
  | some info =>
    obtain ⟨info₀, hinfo₀, heq⟩ := (h source).rest source hs info hinfo
    dsimp only
    rw [Ends.bind_iff]
    refine (Ends.mapM (J := fun (pre : List EmbeddingRequest) answers s' =>
      Arranging s₀ done source answers s' ∧ answers.map (fun r => (r.link, r.location)) =
        pre.map fun r => (r.link, r.location)) ?_ ⟨h source, rfl⟩).mono
      fun answers s' ⟨h', hmap⟩ => h'.finish hs hinfo₀ (heq ▸ hmap)
    rintro pre r post answers s - ⟨h', hmap⟩
    refine (resolveRequest_ends h' r).mono fun r' s' ⟨h', hlink, hloc⟩ => ⟨h', ?_⟩
    simp [hmap, hlink, hloc]

theorem resolveStructure_ends {s : Resolution} (hk : s.documents.keys.Nodup)
    (hs : ∀ d info, s.info? d = some info → info.embeddedBy = none) :
    Ends ResolveError.External resolveStructure s fun _ s' => s.Reordered s' ∧ Arranged s' := by
  unfold resolveStructure
  rw [Ends.bind_iff, Ends.get_iff]
  refine (Ends.forM_split (J := fun pre _ s' => ∀ next, Arranging s pre next [] s')
    (fun pre source post s' hsplit h => resolveRequests_ends ?_ h) fun next => ?_).mono ?_
  · have hnodup : (pre ++ source :: post).Nodup := hsplit ▸ hk
    exact fun hp => (List.nodup_append.1 hnodup).2.2 _ hp source (by simp) rfl
  · refine ⟨.refl s, fun d info p location hd hp => ?_, by simp, by simp, by simp, by simp,
      fun p _ outer houter => ⟨outer, houter, rfl⟩⟩
    simp [hs d info hd] at hp
  · intro _ s' h
    have h := h ""
    have hmem : ∀ p outer, s'.info? p = some outer → p ∈ s.paths := fun p outer hp => by
      change p ∈ s.documents.keys
      rw [← h.reordered.keys]
      exact Table.mem_keys_iff.2 ⟨outer, hp⟩
    refine ⟨h.reordered, fun d info p location hd hp => ?_,
      fun p outer r hp => h.target p (hmem p outer hp) outer hp r,
      fun p outer hp => h.nodup p (hmem p outer hp) outer hp⟩
    rcases h.embedded d info p location hd hp with ⟨-, hrest⟩ | ⟨-, r, hr, -⟩
    · exact hrest
    · simp at hr

end Run

/-! ## Roots -/

/-- A trail that cannot go on to a name closes a cycle at its end. -/
theorem Trail.add?_eq_error {t : Trail} {name : String} {cycle : List String}
    (h : t.add? name = .error cycle) :
    (∃ between, cycle = name :: (between ++ [name])) ∧ cycle <:+ t.entries ++ [name] := by
  unfold add? at h
  split at h
  next hmem =>
    cases h
    refine ⟨?_, (List.suffix_append_self_iff ..).2 (List.dropWhile_suffix _)⟩
    have hne : t.entries.dropWhile (· ≠ name) ≠ [] := fun hnil => by
      simpa using List.dropWhile_eq_nil_iff.1 hnil name hmem
    obtain ⟨first, between, hdrop⟩ := List.exists_cons_of_ne_nil hne
    have hfirst : first = name := by
      have hhead := List.head?_dropWhile_not (· ≠ name) t.entries
      rw [hdrop] at hhead
      simpa using hhead
    exact ⟨between, by rw [hdrop, hfirst, List.cons_append]⟩
  · cases h

namespace Resolution

/-- A document is embedded by another one. -/
def EmbeddedIn (s : Resolution) (d p : String) : Prop := s.embeddedBy? d = some p

theorem embeddedIn_iff {s : Resolution} {d p : String} : s.EmbeddedIn d p ↔
    ∃ info location, s.info? d = some info ∧ info.embeddedBy = some (p, location) := by
  simp [EmbeddedIn, embeddedBy?, Option.bind_eq_some_iff]

/-- Documents from one of them back to itself, each of them embedded by the next one. -/
structure EmbeddingCycle (s : Resolution) (cycle : List String) : Prop where
  closed : ∃ d between, cycle = d :: (between ++ [d])
  chain : cycle.IsChain s.EmbeddedIn

/-- The error tells a cycle of embeddings. -/
def ReportsCycle (s : Resolution) (e : ResolveError) : Prop :=
  ∃ location cycle, e = .located location (.structuralCycle cycle) ∧ s.EmbeddingCycle cycle

end Resolution

/-- A document is embedded, at some depth, in the document `root`, which nobody embeds. -/
inductive Rooted (s : Resolution) (root : String) : String → Prop
  | top {info : DocumentInfo} (h : s.info? root = some info) (he : info.embeddedBy = none) :
    Rooted s root root
  | inside {d p : String} {info : DocumentInfo} {location : Location} (h : s.info? d = some info)
    (he : info.embeddedBy = some (p, location)) (hp : Rooted s root p) : Rooted s root d

theorem Rooted.unique {s : Resolution} {root root' d : String} (h : Rooted s root d)
    (h' : Rooted s root' d) : root = root' := by
  induction h with
  | top h he =>
    cases h' with
    | top => rfl
    | inside h'' he' =>
      cases h.symm.trans h''
      simp [he] at he'
  | inside h he hp ih =>
    cases h' with
    | top h'' he' =>
      cases h.symm.trans h''
      simp [he'] at he
    | inside h'' he' hp' =>
      cases h.symm.trans h''
      cases he.symm.trans he'
      exact ih hp'

/-- Roots are noted where they are found. -/
structure Routed (s₀ s : Resolution) : Prop where
  same : s = { s₀ with documents := s.documents, roots := s.roots }
  keys : s.documents.keys = s₀.documents.keys
  info : ∀ d info, s₀.info? d = some info → ∃ root, s.info? d = some { info with root }
  root : ∀ d info root, s.info? d = some info → info.root = some root →
    Rooted s₀ root d ∧ root ∈ s.roots.keys
  roots : ∀ root entries, s.roots.lookup root = some entries → entries = [] ∧
    ∃ info, s₀.info? root = some info ∧ info.embeddedBy = none
  sorted : s.roots.keys.Pairwise (· < ·)

namespace Routed

variable {s₀ s : Resolution}

theorem of_info {d : String} {info : DocumentInfo} (h : Routed s₀ s)
    (hd : s.info? d = some info) :
    ∃ info₀, s₀.info? d = some info₀ ∧ info = { info₀ with root := info.root } := by
  have hmem : d ∈ s₀.documents.keys := h.keys ▸ Table.mem_keys_iff.2 ⟨info, hd⟩
  obtain ⟨info₀, hinfo₀⟩ := Table.mem_keys_iff.1 hmem
  obtain ⟨root, hroot⟩ := h.info d info₀ hinfo₀
  cases hd.symm.trans hroot
  exact ⟨info₀, hinfo₀, rfl⟩

/-- The root of a document is noted. -/
theorem note {t : Resolution} {d root : String} {info : DocumentInfo} (h : Routed s₀ s)
    (hd : s₀.info? d = some info) (hr : Rooted s₀ root d) (hmem : root ∈ s.roots.keys)
    (hold : ∀ e info, t.info? e = some info → info.root.isSome →
      ∃ info', s.info? e = some info' ∧ info'.root.isSome) :
    let s' := s.modifyInfo d fun info => { info with root := some root }
    Routed s₀ s' ∧ Rooted s₀ root d ∧ root ∈ s'.roots.keys ∧
      (∃ info', s'.info? d = some info' ∧ info'.root.isSome) ∧
      ∀ e info, t.info? e = some info → info.root.isSome →
        ∃ info', s'.info? e = some info' ∧ info'.root.isSome := by
  intro s'
  have hinfo : ∀ e info, s.info? e = some info → s'.info? e =
      some { info with root := if e = d then some root else info.root } := by
    intro e info he
    rw [info?_modifyInfo, he]
    split
    · rfl
    · rfl
  refine ⟨⟨?_, (keys_modifyInfo ..).trans h.keys, fun e info he => ?_, fun e info' r he hir => ?_,
    h.roots, h.sorted⟩, hr, hmem, ?_, fun e info he hs => ?_⟩
  · have := h.same
    rw [show s' = { s with documents := s'.documents } from rfl, this]
  · obtain ⟨r, hs⟩ := h.info e info he
    exact ⟨_, hinfo e { info with root := r } hs⟩
  · have hmem' : e ∈ s.documents.keys := by
      rw [← keys_modifyInfo s d]
      exact Table.mem_keys_iff.2 ⟨info', he⟩
    obtain ⟨info₁, he₁⟩ := Table.mem_keys_iff.1 hmem'
    cases he.symm.trans (hinfo e info₁ he₁)
    dsimp only at hir
    split at hir
    next hed =>
      cases hir
      exact ⟨hed ▸ hr, hmem⟩
    · exact h.root e info₁ r he₁ hir
  · obtain ⟨r, hs⟩ := h.info d info hd
    exact ⟨_, hinfo d { info with root := r } hs, by simp⟩
  · obtain ⟨info', he', hs'⟩ := hold e info he hs
    refine ⟨_, hinfo e info' he', ?_⟩
    dsimp only
    split
    · rfl
    · exact hs'

/-- A document that nobody embeds becomes a root. -/
theorem put (h : Routed s₀ s) {d : String} {info : DocumentInfo} (hd : s₀.info? d = some info)
    (hby : info.embeddedBy = none) : Routed s₀ { s with roots := s.roots.put d [] } := by
  have hlookup : ∀ e, (s.roots.put d []).lookup e = if e = d then some [] else s.roots.lookup e :=
    fun e => Table.lookup_put d e [] s.roots
  refine ⟨?_, h.keys, h.info, fun e info root he hr => ?_, fun root entries hr => ?_,
    Table.sorted_put h.sorted d []⟩
  · have := h.same
    rw [this]
  · obtain ⟨hrooted, hmem⟩ := h.root e info root he hr
    obtain ⟨entries, hentries⟩ := Table.mem_keys_iff.1 hmem
    refine ⟨hrooted, Table.mem_keys_iff.2 ?_⟩
    rw [hlookup]
    split
    · exact ⟨[], rfl⟩
    · exact ⟨entries, hentries⟩
  · rw [hlookup] at hr
    split at hr
    next heq =>
      cases hr
      exact ⟨rfl, info, heq ▸ hd, hby⟩
    · exact h.roots root entries hr

end Routed

namespace Run

variable {s₀ s : Resolution}

/-- The documents on a trail are different ones, so it does not get too long. Each is embedded by
the next one, so a trail that closes is a cycle of embeddings. -/
theorem findRoot_ends (ha : Arranged s₀) (fuel : Nat) (trail : Trail) (d : String)
    (ht : trail.entries ⊆ s₀.documents.keys)
    (hchain : (trail.entries ++ [d]).IsChain s₀.EmbeddedIn)
    (hfuel : s₀.documents.keys.length < fuel + trail.entries.length) (h : Routed s₀ s)
    {info : DocumentInfo} (hd : s₀.info? d = some info) :
    Ends s₀.ReportsCycle (findRoot fuel trail d) s fun root s' => Routed s₀ s' ∧
      Rooted s₀ root d ∧ root ∈ s'.roots.keys ∧ (∃ info', s'.info? d = some info' ∧ info'.root.isSome) ∧
      ∀ e info, s.info? e = some info → info.root.isSome →
        ∃ info', s'.info? e = some info' ∧ info'.root.isSome := by
  induction fuel generalizing trail d s info with
  | zero =>
    have hle := trail.nodup.length_le_of_subset ht
    omega
  | succ fuel ih =>
    obtain ⟨known, hroot⟩ := h.info d info hd
    unfold findRoot
    rw [Ends.bind_iff, Ends.get_iff, hroot]
    cases known with
    | some root =>
      obtain ⟨hr, hmem⟩ := h.root d _ root hroot rfl
      exact ⟨h, hr, hmem, ⟨_, hroot, rfl⟩, fun e info he hs => ⟨info, he, hs⟩⟩
    | none =>
      dsimp only
      cases hadd : trail.add? d with
      | error cycle =>
        obtain ⟨⟨between, hclosed⟩, hsuffix⟩ := Trail.add?_eq_error hadd
        exact ⟨_, cycle, rfl, ⟨d, between, hclosed⟩, hchain.suffix hsuffix⟩
      | ok trail' =>
        unfold Trail.add? at hadd
        split at hadd <;> cases hadd
        dsimp only
        rw [Ends.bind_iff, Ends.pure_iff]
        cases hby : info.embeddedBy with
        | some by' =>
          obtain ⟨p, location⟩ := by'
          obtain ⟨outer, -, houter, -⟩ := ha.embedded d info p location hd hby
          dsimp only
          rw [Ends.bind_iff]
          have hmem : d ∈ s₀.documents.keys := Table.mem_keys_iff.2 ⟨info, hd⟩
          have hnext : ((trail.entries ++ [d]) ++ [p]).IsChain s₀.EmbeddedIn := by
            refine List.isChain_append.2 ⟨hchain, .singleton p, fun e he e' he' => ?_⟩
            cases List.getLast?_concat.symm.trans he
            cases he'
            exact embeddedIn_iff.2 ⟨info, location, hd, hby⟩
          refine (ih _ p (List.append_subset.2 ⟨ht, List.cons_subset.2 ⟨hmem, List.nil_subset _⟩⟩)
            hnext (by rw [List.length_append, List.length_singleton]; omega) h houter).mono ?_
          rintro root s' ⟨h', hr, hmem, hp, hold⟩
          rw [Ends.bind_iff, Ends.modify_iff, Ends.pure_iff]
          exact h'.note hd (.inside hd hby hr) hmem hold
        | none =>
          dsimp only
          rw [Ends.bind_iff, Ends.modify_iff, Ends.bind_iff, Ends.pure_iff, Ends.bind_iff,
            Ends.modify_iff, Ends.pure_iff]
          exact (h.put hd hby).note hd (.top hd hby) (Table.mem_keys_iff.2 ⟨[], by simp⟩)
            fun e info he hs => ⟨info, he, hs⟩

theorem orderDocuments_ends (ha : Arranged s)
    (hroot : ∀ d info, s.info? d = some info → info.root = none) (hroots : s.roots = []) :
    Ends s.ReportsCycle orderDocuments s fun _ s' => Routed s s' ∧
      ∀ d info, s'.info? d = some info → ∃ root, info.root = some root := by
  have hstart : Routed s s := by
    refine ⟨rfl, rfl, fun d info hd => ⟨info.root, hd⟩, fun d info root hd hr => ?_,
      by simp [hroots], by simp [hroots, Table.keys]⟩
    simp [hroot d info hd] at hr
  unfold orderDocuments
  rw [Ends.bind_iff, Ends.get_iff]
  dsimp only
  refine (Ends.forM_split (J := fun pre _ s' => Routed s s' ∧
    ∀ d ∈ pre, ∃ info, s'.info? d = some info ∧ info.root.isSome) ?_ ⟨hstart, by simp⟩).mono ?_
  · rintro pre d post s' hsplit ⟨h, hpre⟩
    have hd : d ∈ s.documents.keys := by
      change d ∈ s.paths
      rw [← hsplit]
      simp
    obtain ⟨info, hinfo⟩ := Table.mem_keys_iff.1 hd
    rw [Ends.bind_iff]
    refine (findRoot_ends ha _ _ d (List.nil_subset _) (.singleton d) (Nat.lt_succ_self _) h hinfo).mono ?_
    rintro root s'' ⟨h', -, -, hself, hold⟩
    refine ⟨h', fun e he => ?_⟩
    rcases List.mem_append.1 he with he | he
    · obtain ⟨info, hinfo, hs⟩ := hpre e he
      exact hold e info hinfo hs
    · cases List.mem_singleton.1 he
      exact hself
  · rintro _ s' ⟨h, hall⟩
    refine ⟨h, fun d info hd => ?_⟩
    have hmem : d ∈ s.paths := by
      change d ∈ s.documents.keys
      rw [← h.keys]
      exact Table.mem_keys_iff.2 ⟨info, hd⟩
    obtain ⟨info', hd', hs⟩ := hall d hmem
    cases hd.symm.trans hd'
    exact Option.isSome_iff_exists.1 hs

end Run

end Folio
