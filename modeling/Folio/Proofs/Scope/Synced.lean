import Folio.Proofs.Scope.Entering

/-!
# Scopes and the index of all documents

The tags of a labeled node are known in the scopes that it was handed on along, and in the index.
The two agree (`Registry.Synced`): what a scope knows under an absolute tag, the index knows under
this tag, and what the scope of a document knows under a relative one, the index knows for the
document, and nothing else for it. Every operation keeps this (`Registry.Move.synced`), so it holds of all
registries that are reached (`Registry.Reached.synced`).
-/

namespace Folio.Registry

variable {r r' : Registry}

/-- Scopes lie behind their parents and in the documents of those, documents have scopes without
parents, and what scopes know of labeled nodes agrees with the index. -/
structure Synced (r : Registry) : Prop where
  parent : ∀ σ sc p, r.scope? σ = some sc → sc.parent = some p →
    p.index < σ.index ∧ ∃ outer, r.scope? p = some outer ∧ outer.document = sc.document
  origin : ∀ σ sc o, r.scope? σ = some sc → sc.origin = some o → o.index < σ.index
  top : ∀ σ sc, r.scope? σ = some sc → sc.parent = none →
    sc.origin = none ∧ sc.name = "" ∧ r.documentScope? sc.document = some σ
  document : ∀ d σ, r.documentScope? d = some σ → Path.isAbs d = true ∧
    r.address? (.place d "") = some ⟨d, "", .document d⟩ ∧
    ∃ sc, r.scope? σ = some sc ∧ sc.parent = none ∧ sc.document = d
  block : ∀ b e, r.block? b = some e → (r.scope? e.scope).isSome
  tag : ∀ σ sc t i, r.scope? σ = some sc → sc.anchors.lookup t = some i → Path.isAbs t = true →
    ∃ d, r.address? (.tag t) = some ⟨d, t, .entry i⟩
  anchor : ∀ d σ sc t, r.documentScope? d = some σ → r.scope? σ = some sc → t ≠ "" →
    Path.isAbs t = false →
    r.address? (.place d t) = (sc.anchors.lookup t).map fun i => ⟨d, t, .entry i⟩
  place : ∀ p t address, r.address? (.place p t) = some address → (r.documentScope? p).isSome

/-! ## Chains of parents -/

/-- The dynamic parents of a scope end with the scope of its document. -/
structure LeadsUp (r : Registry) (scopes : List ScopeId) (document : String) (τ : ScopeId) :
    Prop where
  nodup : scopes.Nodup
  last : scopes.getLast? = some τ
  top : ∃ sc, r.scope? τ = some sc ∧ sc.parent = none ∧ sc.document = document
  inner : ∀ σ ∈ scopes, ∀ sc, r.scope? σ = some sc → sc.parent = none → σ = τ

theorem Synced.leadsUp (h : r.Synced) {σ : ScopeId} {sc : Scope} (hσ : r.scope? σ = some sc) :
    ∃ τ, LeadsUp r (r.dynamicChain σ) sc.document τ := by
  have hlt : σ.index < r.scopes.size := (Array.getElem?_eq_some_iff.1 hσ).1
  suffices hchain : ∃ τ, LeadsUp r (r.chain Scope.parent r.scopes.size (some σ)) sc.document τ ∧
      ∀ ρ ∈ r.chain Scope.parent r.scopes.size (some σ), ρ.index ≤ σ.index from
    hchain.imp fun _ h => h.1
  generalize r.scopes.size = fuel at hlt
  induction fuel generalizing σ sc with
  | zero => omega
  | succ fuel ih =>
    unfold chain
    rw [hσ, Option.bind_some]
    cases hp : sc.parent with
    | none =>
      have hnil : r.chain Scope.parent fuel none = [] := by cases fuel <;> rfl
      rw [hnil]
      exact ⟨σ, ⟨by simp, rfl, ⟨sc, hσ, hp, rfl⟩, by simp⟩, by simp⟩
    | some p =>
      obtain ⟨hpσ, outer, hout, hdoc⟩ := h.parent σ sc p hσ hp
      obtain ⟨τ, hl, hle⟩ := ih hout (by omega)
      have hne : r.chain Scope.parent fuel (some p) ≠ [] := fun hnil => by
        have hlast := hl.last
        rw [hnil] at hlast
        cases hlast
      refine ⟨τ, ⟨List.nodup_cons.2 ⟨fun hmem => ?_, hl.nodup⟩, ?_, hdoc ▸ hl.top, ?_⟩, ?_⟩
      · have := hle σ hmem
        omega
      · rw [List.getLast?_cons_of_ne_nil hne, hl.last]
      · intro ρ hρ sc' hsc' hp'
        rcases List.mem_cons.1 hρ with rfl | hρ
        · cases hσ.symm.trans hsc'
          cases hp.symm.trans hp'
        · exact hl.inner ρ hρ sc' hsc' hp'
      · intro ρ hρ
        rcases List.mem_cons.1 hρ with rfl | hρ
        · exact Nat.le_refl _
        · have := hle ρ hρ
          omega

/-! ## Operations keep scopes and index in agreement -/

theorem Synced.empty (rootType : String) : Synced { rootType } where
  parent σ sc p h := by simp [scope?] at h
  origin σ sc o h := by simp [scope?] at h
  top σ sc h := by simp [scope?] at h
  document d σ h := by simp [documentScope?] at h
  block b e h := by simp [block?] at h
  tag σ sc t i h := by simp [scope?] at h
  anchor d σ sc t h := by simp [documentScope?] at h
  place p t address h := by simp [address?] at h

/-- If scopes and documents stay in their places and there are no others, only the names that
scopes and the index know of have to agree again. -/
theorem Synced.of_stays (h : r.Synced) (hs : Stays r r')
    (hback : ∀ σ sc', r'.scope? σ = some sc' → ∃ sc, r.scope? σ = some sc ∧ sc'.place = sc.place)
    (hdocument : ∀ d, r'.documentScope? d = r.documentScope? d)
    (hblock : ∀ b e, r'.block? b = some e → r.block? b = some e ∨ (r.scope? e.scope).isSome)
    (hroot : ∀ d, r'.address? (.place d "") = r.address? (.place d ""))
    (htag : ∀ σ sc t i, r'.scope? σ = some sc → sc.anchors.lookup t = some i →
      Path.isAbs t = true → ∃ d, r'.address? (.tag t) = some ⟨d, t, .entry i⟩)
    (hanchor : ∀ d σ sc t, r.documentScope? d = some σ → r'.scope? σ = some sc → t ≠ "" →
      Path.isAbs t = false →
      r'.address? (.place d t) = (sc.anchors.lookup t).map fun i => ⟨d, t, .entry i⟩)
    (hplace : ∀ p t address, r'.address? (.place p t) = some address →
      (r.documentScope? p).isSome) : r'.Synced where
  parent σ sc' p hσ hp := by
    obtain ⟨sc, hsc, hsame⟩ := hback σ sc' hσ
    obtain ⟨hlt, outer, hout, hdoc⟩ := h.parent σ sc p hsc
      ((congrArg Scope.parent hsame).symm.trans hp)
    obtain ⟨outer', hout', hsame'⟩ := hs.scope p outer hout
    exact ⟨hlt, outer', hout', (congrArg Scope.document hsame').trans
      (hdoc.trans (congrArg Scope.document hsame).symm)⟩
  origin σ sc' o hσ ho := by
    obtain ⟨sc, hsc, hsame⟩ := hback σ sc' hσ
    exact h.origin σ sc o hsc ((congrArg Scope.origin hsame).symm.trans ho)
  top σ sc' hσ hp := by
    obtain ⟨sc, hsc, hsame⟩ := hback σ sc' hσ
    obtain ⟨ho, hn, hd⟩ := h.top σ sc hsc ((congrArg Scope.parent hsame).symm.trans hp)
    refine ⟨(congrArg Scope.origin hsame).trans ho, (congrArg Scope.name hsame).trans hn, ?_⟩
    rw [hdocument]
    exact (congrArg r.documentScope? (congrArg Scope.document hsame)).trans hd
  document d σ hd := by
    obtain ⟨habs, haddr, sc, hsc, hp, hdoc⟩ := h.document d σ (hdocument d ▸ hd)
    obtain ⟨sc', hsc', hsame⟩ := hs.scope σ sc hsc
    exact ⟨habs, (hroot d).trans haddr, sc', hsc', (congrArg Scope.parent hsame).trans hp,
      (congrArg Scope.document hsame).trans hdoc⟩
  block b e hb := by
    have hsome := (hblock b e hb).elim (h.block b e) id
    obtain ⟨sc, hsc⟩ := Option.isSome_iff_exists.1 hsome
    obtain ⟨sc', hsc', -⟩ := hs.scope _ sc hsc
    rw [hsc', Option.isSome_some]
  tag := htag
  anchor d σ sc t hd := hanchor d σ sc t (hdocument d ▸ hd)
  place p t address hp := hdocument p ▸ hplace p t address hp

theorem Aside.synced (ha : Aside r r') (h : r.Synced) : r'.Synced := by
  have haddress : ∀ link, r'.address? link = r.address? link := fun link => by
    rw [address?, address?, ha.addresses]
  refine h.of_stays ha.stays (fun σ sc' hσ => ?_) (fun d => ?_) ha.block (fun d => haddress _)
    (fun σ sc' t i hσ ht habs => ?_) (fun d σ sc' t hd hσ hne hrel => ?_)
    fun p t address hp => h.place p t address (haddress _ ▸ hp)
  · obtain ⟨sc, hsc, hbare⟩ := ha.scope?_eq_some hσ
    exact ⟨sc, hsc, by rw [Scope.place, hbare, Scope.place]⟩
  · rw [documentScope?, documentScope?, ha.documents]
  · obtain ⟨sc, hsc, hbare⟩ := ha.scope?_eq_some hσ
    rw [haddress]
    exact h.tag σ sc t i hsc (Scope.anchors_eq_of_bare hbare ▸ ht) habs
  · obtain ⟨sc, hsc, hbare⟩ := ha.scope?_eq_some hσ
    rw [haddress, Scope.anchors_eq_of_bare hbare]
    exact h.anchor d σ sc t hd hsc hne hrel

/-! ## New scopes -/

/-- The scope behind all others. -/
abbrev freshScope (r : Registry) : ScopeId := ⟨r.scopes.size⟩

theorem index_lt_of_scope? {σ : ScopeId} {sc : Scope} (h : r.scope? σ = some sc) :
    σ.index < r.scopes.size := (Array.getElem?_eq_some_iff.1 h).1

theorem ne_freshScope_of_scope? {σ : ScopeId} {sc : Scope} (h : r.scope? σ = some sc) :
    σ ≠ r.freshScope := by
  rintro rfl
  exact absurd (index_lt_of_scope? h) (Nat.lt_irrefl _)

/-- There is one more scope, and nothing else is different about scopes and blocks. -/
structure Gains (r r' : Registry) (new : Scope) : Prop where
  scope : ∀ σ, r'.scope? σ = if σ = r.freshScope then some new else r.scope? σ
  blocks : r'.blocks = r.blocks

namespace Gains

variable {new : Scope}

theorem of_scopes (hs : r'.scopes = r.scopes.push new) (hb : r'.blocks = r.blocks) :
    Gains r r' new where
  scope σ := by
    obtain ⟨σ⟩ := σ
    simp only [scope?, hs, Array.getElem?_push, ScopeId.mk.injEq]
  blocks := hb

theorem fresh (ho : Gains r r' new) : r'.scope? r.freshScope = some new := by
  rw [ho.scope, if_pos rfl]

theorem old (ho : Gains r r' new) {σ : ScopeId} {sc : Scope} (h : r.scope? σ = some sc) :
    r'.scope? σ = some sc := by
  rw [ho.scope, if_neg (ne_freshScope_of_scope? h), h]

theorem cases (ho : Gains r r' new) {σ : ScopeId} {sc : Scope} (h : r'.scope? σ = some sc) :
    (σ = r.freshScope ∧ sc = new) ∨ r.scope? σ = some sc := by
  rw [ho.scope] at h
  split at h
  next heq => exact .inl ⟨heq, (Option.some.inj h).symm⟩
  · exact .inr h

theorem block? (ho : Gains r r' new) (b : BlockId) : r'.block? b = r.block? b := by
  rw [Registry.block?, Registry.block?, ho.blocks]

theorem block (ho : Gains r r' new) (h : r.Synced) {b : BlockId} {e : BlockEntry}
    (hb : r'.block? b = some e) : (r'.scope? e.scope).isSome := by
  obtain ⟨sc, hsc⟩ := Option.isSome_iff_exists.1 (h.block b e (ho.block? b ▸ hb))
  rw [ho.old hsc, Option.isSome_some]

end Gains

theorem newScope_gains (r : Registry) (name document : String) (parent origin : Option ScopeId) :
    ∃ inner, Gains r (r.newScope name document parent origin).2 inner ∧ inner.parent = parent ∧
      inner.origin = origin ∧ inner.document = document ∧ inner.anchors = [] :=
  ⟨_, .of_scopes rfl rfl, rfl, rfl, rfl, rfl⟩

theorem Synced.newScope (h : r.Synced) (name : String) {parent origin : ScopeId} {outer : Scope}
    (hp : r.scope? parent = some outer) (ho : (r.scope? origin).isSome) :
    (r.newScope name outer.document (some parent) (some origin)).2.Synced := by
  obtain ⟨defining, ho⟩ := Option.isSome_iff_exists.1 ho
  obtain ⟨inner, hgains, hparent, horigin, hdocument, hanchors⟩ :=
    r.newScope_gains name outer.document (some parent) (some origin)
  refine { h with
    parent := fun σ sc p hσ hsp => ?_, origin := fun σ sc o hσ hso => ?_
    top := fun σ sc hσ hnone => ?_, document := fun d σ hd => ?_
    block := fun b e hb => hgains.block h hb
    tag := fun σ sc t i hσ ht habs => ?_, anchor := fun d σ sc t hd hσ hne hrel => ?_ }
  · obtain ⟨rfl, rfl⟩ | hσ := hgains.cases hσ
    · cases hparent.symm.trans hsp
      exact ⟨index_lt_of_scope? hp, outer, hgains.old hp, hdocument.symm⟩
    · obtain ⟨hlt, outer', hout, hdoc⟩ := h.parent σ sc p hσ hsp
      exact ⟨hlt, outer', hgains.old hout, hdoc⟩
  · obtain ⟨rfl, rfl⟩ | hσ := hgains.cases hσ
    · cases horigin.symm.trans hso
      exact index_lt_of_scope? ho
    · exact h.origin σ sc o hσ hso
  · obtain ⟨rfl, rfl⟩ | hσ := hgains.cases hσ
    · cases hparent.symm.trans hnone
    · exact h.top σ sc hσ hnone
  · obtain ⟨habs, haddr, sc, hsc, hdoc⟩ := h.document d σ hd
    exact ⟨habs, haddr, sc, hgains.old hsc, hdoc⟩
  · obtain ⟨rfl, rfl⟩ | hσ := hgains.cases hσ
    · rw [hanchors] at ht
      cases ht
    · exact h.tag σ sc t i hσ ht habs
  · obtain ⟨-, -, sc', hsc', -⟩ := h.document d σ hd
    cases (hgains.old hsc').symm.trans hσ
    exact h.anchor d σ sc t hd hsc' hne hrel

/-- A document was added with the scope `top`, and can be addressed. -/
structure Documented (r r' : Registry) (document : String) (top : Scope) : Prop
    extends Gains r r' top where
  bare : top.parent = none ∧ top.origin = none ∧ top.name = "" ∧ top.document = document ∧
    top.anchors = []
  documents : ∀ d, r'.documentScope? d =
    if d = document then some r.freshScope else r.documentScope? d
  address : ∀ link, r'.address? link = if link = .place document "" then
    some ⟨document, "", .document document⟩ else r.address? link

theorem addDocument_documented (r : Registry) (document : String) :
    ∃ top, Documented r (r.addDocument document).2 document top :=
  ⟨_, .of_scopes rfl rfl, ⟨rfl, rfl, rfl, rfl, rfl⟩,
    fun d => Table.lookup_cons document d r.freshScope r.index.documents,
    fun link => lookup_cons_eq_ite (Link.place document "") link _ r.index.addresses⟩

namespace Documented

variable {document : String} {top : Scope}

theorem document_of_ne (hd : Documented r r' document top) {d : String} (h : d ≠ document) :
    r'.documentScope? d = r.documentScope? d := by
  rw [hd.documents, if_neg h]

/-- Documents that are there already have another path. -/
theorem document_old (hd : Documented r r' document top) (hnew : r.documentScope? document = none)
    {d : String} {σ : ScopeId} (h : r.documentScope? d = some σ) :
    r'.documentScope? d = some σ := by
  rw [hd.document_of_ne, h]
  rintro rfl
  cases hnew.symm.trans h

theorem stays (hd : Documented r r' document top) (hnew : r.documentScope? document = none) :
    Stays r r' where
  scope _ sc hσ := ⟨sc, hd.old hσ, rfl⟩
  document _ _ h := hd.document_old hnew h

theorem synced (hd : Documented r r' document top) (h : r.Synced)
    (habs : Path.isAbs document = true) (hnew : r.documentScope? document = none) :
    r'.Synced := by
  obtain ⟨hparent, horigin, hname, hdocument, hanchors⟩ := hd.bare
  refine ⟨fun σ sc p hσ hsp => ?_, fun σ sc o hσ hso => ?_, fun σ sc hσ hnone => ?_,
    fun d σ hσ => ?_, fun b e hb => hd.block h hb, fun σ sc t i hσ ht ha => ?_,
    fun d σ sc t hσ hsc hne hrel => ?_, fun p t address hp => ?_⟩
  · obtain ⟨rfl, rfl⟩ | hσ := hd.cases hσ
    · cases hparent.symm.trans hsp
    · obtain ⟨hlt, outer, hout, hdoc⟩ := h.parent σ sc p hσ hsp
      exact ⟨hlt, outer, hd.old hout, hdoc⟩
  · obtain ⟨rfl, rfl⟩ | hσ := hd.cases hσ
    · cases horigin.symm.trans hso
    · exact h.origin σ sc o hσ hso
  · obtain ⟨rfl, rfl⟩ | hσ := hd.cases hσ
    · exact ⟨horigin, hname, by rw [hd.documents, if_pos hdocument]⟩
    · obtain ⟨ho, hn, hτ⟩ := h.top σ sc hσ hnone
      exact ⟨ho, hn, hd.document_old hnew hτ⟩
  · by_cases hdd : d = document
    · subst hdd
      rw [hd.documents, if_pos rfl] at hσ
      cases hσ
      exact ⟨habs, by rw [hd.address, if_pos rfl], top, hd.fresh, hparent, hdocument⟩
    · rw [hd.document_of_ne hdd] at hσ
      obtain ⟨ha, haddr, sc, hsc, hrest⟩ := h.document d σ hσ
      refine ⟨ha, ?_, sc, hd.old hsc, hrest⟩
      rw [hd.address, if_neg (by simp [hdd]), haddr]
  · obtain ⟨rfl, rfl⟩ | hσ := hd.cases hσ
    · rw [hanchors] at ht
      cases ht
    · rw [hd.address, if_neg (by simp)]
      exact h.tag σ sc t i hσ ht ha
  · rw [hd.address, if_neg (by simp [hne])]
    by_cases hdd : d = document
    · -- nothing was known for a document that was not there
      subst hdd
      rw [hd.documents, if_pos rfl] at hσ
      cases hσ
      cases hd.fresh.symm.trans hsc
      rw [hanchors]
      cases haddr : r.address? (.place d t) with
      | none => rfl
      | some address =>
        have hsome := h.place d t address haddr
        rw [hnew] at hsome
        cases hsome
    · rw [hd.document_of_ne hdd] at hσ
      obtain ⟨-, -, sc', hsc', -⟩ := h.document d σ hσ
      cases (hd.old hsc').symm.trans hsc
      exact h.anchor d σ sc t hσ hsc' hne hrel
  · rw [hd.documents]
    split
    · rfl
    next hpd =>
      rw [hd.address, if_neg (by simp [hpd])] at hp
      exact h.place p t address hp

end Documented

/-! ## Labeled nodes -/

theorem lookup_map_append (tags : List String) (id : EntryId) (anchors : List (String × EntryId))
    (t : String) : (tags.map (·, id) ++ anchors).lookup t =
      if t ∈ tags then some id else anchors.lookup t := by
  induction tags with
  | nil => rfl
  | cons tag tags ih =>
    rw [List.map_cons, List.cons_append, Table.lookup_cons, ih]
    by_cases h : t = tag <;> simp [h]

theorem tag_mem_map_linkOf {out : List String} {d t : String} :
    Link.tag t ∈ out.map (linkOf d) ↔ t ∈ out ∧ Path.isAbs t = true := by
  rw [List.mem_map]
  constructor
  · rintro ⟨t', ht', hl⟩
    unfold linkOf at hl
    split at hl
    next ha =>
      cases hl
      exact ⟨ht', ha⟩
    · cases hl
  · exact fun ⟨ht, ha⟩ => ⟨t, ht, if_pos ha⟩

theorem place_mem_map_linkOf {out : List String} {d p t : String} :
    Link.place p t ∈ out.map (linkOf d) ↔ p = d ∧ t ∈ out ∧ Path.isAbs t = false := by
  rw [List.mem_map]
  constructor
  · rintro ⟨t', ht', hl⟩
    unfold linkOf at hl
    split at hl
    · cases hl
    next ha =>
      cases hl
      exact ⟨rfl, ht', Bool.eq_false_iff.2 ha⟩
  · rintro ⟨rfl, ht, ha⟩
    exact ⟨t, ht, if_neg (by simp [ha])⟩

/-- A scope is in its place, and knows what it knew or takes part. -/
theorem HandedOn.scope?_eq_some {scopes : List ScopeId} {id : EntryId} {out : List String}
    (h : HandedOn r r' scopes id out) {σ : ScopeId} {sc' : Scope} (hσ : r'.scope? σ = some sc') :
    ∃ sc, r.scope? σ = some sc ∧ sc'.place = sc.place ∧ (sc' = sc ∧ σ ∉ scopes ∨ σ ∈ scopes ∧
      ∃ tags, sc'.anchors = tags.map (·, id) ++ sc.anchors ∧
        (∀ t ∈ tags, Path.isAbs t = true → t ∈ out) ∧
        (scopes.getLast? = some σ → sc.name = "" → out = tags)) := by
  by_cases hmem : σ ∈ scopes
  · cases hsc : r.scope? σ with
    | none =>
      rw [h.off σ fun _ => hsc, hsc] at hσ
      cases hσ
    | some sc =>
      obtain ⟨sc'', tags, hsc', hplace, ha, -, habs, hout⟩ := h.scope σ hmem sc hsc
      cases hσ.symm.trans hsc'
      exact ⟨sc, rfl, hplace, .inr ⟨hmem, tags, ha, habs, hout⟩⟩
  · rw [h.off σ fun hmem' => (hmem hmem').elim] at hσ
    exact ⟨sc', hσ, rfl, .inl ⟨rfl, hmem⟩⟩

theorem Entered.stays {scopes : List ScopeId} {e : Entry} {id : EntryId} {out : List String}
    (h : Entered r r' scopes e id out) : Stays r r' where
  scope σ sc hσ := by
    by_cases hmem : σ ∈ scopes
    · obtain ⟨sc', -, hsc', hplace, -⟩ := h.scope σ hmem sc hσ
      exact ⟨sc', hsc', hplace⟩
    · exact ⟨sc, (h.off σ fun hmem' => (hmem hmem').elim).trans hσ, rfl⟩
  document d σ hd := by rwa [documentScope?, h.documents]

theorem Entered.synced {scopes : List ScopeId} {e : Entry} {id : EntryId} {out : List String}
    (he : Entered r r' scopes e id out) (h : r.Synced) {τ : ScopeId}
    (hl : LeadsUp r scopes e.document τ) : r'.Synced := by
  have htop : r.documentScope? e.document = some τ := by
    obtain ⟨sc, hτ, hp, hd⟩ := hl.top
    exact hd ▸ (h.top τ sc hτ hp).2.2
  -- a tag that was taken is not among the new ones
  have hkept : ∀ t d i, Path.isAbs t = true → r.address? (.tag t) = some ⟨d, t, .entry i⟩ →
      r'.address? (.tag t) = some ⟨d, t, .entry i⟩ := fun t d i ha haddr => by
    rw [he.address, if_neg, haddr]
    exact fun hmem => he.fresh t (tag_mem_map_linkOf.1 hmem).1 ha _ i haddr rfl
  refine h.of_stays he.stays (fun σ sc' hσ => ?_) (fun d => ?_) (fun b e' hb => ?_) (fun d => ?_)
    (fun σ sc' t i hσ ht habs => ?_) (fun d σ sc' t hd hσ hne hrel => ?_)
    fun p t address hp => ?_
  · obtain ⟨sc, hsc, hplace, -⟩ := he.scope?_eq_some hσ
    exact ⟨sc, hsc, hplace⟩
  · rw [documentScope?, documentScope?, he.documents]
  · rw [block?, he.blocks] at hb
    exact .inl hb
  · rw [he.address, if_neg]
    exact fun hmem => he.ne_empty "" (place_mem_map_linkOf.1 hmem).2.1 rfl
  · obtain ⟨sc, hsc, -, ⟨rfl, -⟩ | ⟨-, tags, ha, hout, -⟩⟩ := he.scope?_eq_some hσ
    · obtain ⟨d, haddr⟩ := h.tag σ sc' t i hsc ht habs
      exact ⟨d, hkept t d i habs haddr⟩
    · rw [ha, lookup_map_append] at ht
      split at ht
      next hmem =>
        cases ht
        refine ⟨e.document, ?_⟩
        rw [he.address, if_pos (tag_mem_map_linkOf.2 ⟨hout t hmem habs, habs⟩)]
        rfl
      · obtain ⟨d, haddr⟩ := h.tag σ sc t i hsc ht habs
        exact ⟨d, hkept t d i habs haddr⟩
  · obtain ⟨-, -, top, hσtop, hp, rfl⟩ := h.document d σ hd
    obtain ⟨sc, hsc, -, ⟨rfl, hoff⟩ | ⟨hmem, tags, ha, -, hout⟩⟩ := he.scope?_eq_some hσ
    · cases hsc.symm.trans hσtop
      -- the scope of another document
      have hne' : sc'.document ≠ e.document := fun heq => by
        rw [heq, htop] at hd
        cases hd
        exact hoff (List.mem_of_getLast? hl.last)
      rw [he.address, if_neg fun hmem => hne' (place_mem_map_linkOf.1 hmem).1]
      exact h.anchor _ σ sc' t hd hsc hne hrel
    · obtain rfl : top = sc := Option.some.inj (hσtop.symm.trans hsc)
      obtain rfl := hl.inner σ hmem top hsc hp
      obtain ⟨top', hsc', -, hdoc⟩ := hl.top
      obtain rfl : top = top' := Option.some.inj (hsc.symm.trans hsc')
      obtain rfl := hout hl.last (h.top σ top hsc hp).2.1
      rw [he.address, ha, lookup_map_append, h.anchor _ σ top t hd hsc hne hrel]
      by_cases ht : t ∈ out
      · rw [if_pos (place_mem_map_linkOf.2 ⟨hdoc, ht, hrel⟩), if_pos ht, hdoc]
        rfl
      · rw [if_neg fun hmem => ht (place_mem_map_linkOf.1 hmem).2.1, if_neg ht]
  · rw [he.address] at hp
    split at hp
    next hmem =>
      rw [(place_mem_map_linkOf.1 hmem).1, htop]
      rfl
    · exact h.place p t address hp

/-! ## All operations -/

theorem Move.synced (hm : Move r r') (h : r.Synced) : r'.Synced := by
  cases hm with
  | @document document habs hnew =>
    obtain ⟨top, hd⟩ := r.addDocument_documented document
    exact hd.synced h habs hnew
  | scope name hp ho => exact h.newScope name hp ho
  | name hn => exact (Aside.nextName hn).synced h
  | child hc => exact (Aside.addChild hc).synced h
  | @entry σ sc e tags explicit id _ hσ hd htags hok =>
    obtain ⟨τ, hl⟩ := h.leadsUp hσ
    obtain ⟨out, he⟩ := (registerEntry_entered explicit hl.nodup htags).of_ok hok
    exact he.synced h (hd ▸ hl)
  | tag hok => exact ((registerTag_aside _ _ _ _ _ r).of_ok hok).synced h
  | block hs hok => exact ((registerBlock_aside _ _ hs).of_ok hok).synced h
  | value binding => exact (Aside.addValue r binding).synced h
  | setValue σ name value => exact (Aside.setValue r σ name value).synced h
  | found e hf => exact (Aside.found e hf).synced h

theorem Move.stays (hm : Move r r') (h : r.Synced) : Stays r r' := by
  cases hm with
  | @document document _ hnew =>
    obtain ⟨top, hd⟩ := r.addDocument_documented document
    exact hd.stays hnew
  | scope name _ _ =>
    obtain ⟨inner, hgains, -⟩ := r.newScope_gains name _ (some _) (some _)
    exact ⟨fun _ sc hσ => ⟨sc, hgains.old hσ, rfl⟩, fun _ _ hd => hd⟩
  | name hn => exact (Aside.nextName hn).stays
  | child hc => exact (Aside.addChild hc).stays
  | @entry σ sc e tags explicit id _ hσ hd htags hok =>
    obtain ⟨τ, hl⟩ := h.leadsUp hσ
    obtain ⟨out, he⟩ := (registerEntry_entered explicit hl.nodup htags).of_ok hok
    exact he.stays
  | tag hok => exact ((registerTag_aside _ _ _ _ _ r).of_ok hok).stays
  | block hs hok => exact ((registerBlock_aside _ _ hs).of_ok hok).stays
  | value binding => exact (Aside.addValue r binding).stays
  | setValue σ name value => exact (Aside.setValue r σ name value).stays
  | found e hf => exact (Aside.found e hf).stays

theorem Moves.synced (hm : Moves r r') (h : r.Synced) : r'.Synced := by
  induction hm with
  | refl => exact h
  | tail _ hm ih => exact hm.synced ih

theorem Moves.stays (hm : Moves r r') (h : r.Synced) : Stays r r' := by
  induction hm with
  | refl => exact .refl r
  | tail hms hm ih => exact ih.trans (hm.stays (Moves.synced hms h))

theorem Reached.synced (h : r.Reached) : r.Synced := by
  obtain ⟨rootType, hm⟩ := h
  exact Moves.synced hm (.empty rootType)

end Folio.Registry
