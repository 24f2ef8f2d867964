import Folio.Proofs.Scope.Synced

/-!
# Names along nested scopes

The full name of a scope is joined from the outside in, when the scope is opened. A tag gets the
names of the scopes it passes in front from the inside out, when it is handed on. In the end both
are the same (`Registry.Placed.registerEntry_named`), because `Path.join` is associative on relative
paths.

Only the places of scopes matter here, so the result holds of all registries whose scopes were added
by `Registry.addDocument` and `Registry.newScope` (`Registry.Placed`), whatever else was done to
them.
-/

namespace Folio.Registry

variable {r r' : Registry}

/-- Scopes were added for documents and below scopes that were there. Everything else has left them
in their places. -/
inductive Placed : Registry → Prop
  | start (rootType : String) : Placed { rootType }
  | document {r : Registry} (document : String) : Placed r → Placed (r.addDocument document).2
  | scope {r : Registry} (name document : String) {parent : ScopeId} (origin : Option ScopeId) :
    (r.scope? parent).isSome → Placed r → Placed (r.newScope name document (some parent) origin).2
  | other {r r' : Registry} :
    (∀ σ, (r'.scope? σ).map Scope.place = (r.scope? σ).map Scope.place) → Placed r → Placed r'

theorem Move.placed (hm : Move r r') (hs : r.Synced) (h : r.Placed) : r'.Placed := by
  have haside : Aside r r' → r'.Placed := fun ha => .other (fun σ => by
    have hplace : Scope.place = Scope.place ∘ Scope.bare := rfl
    rw [hplace, ← Option.map_map, ha.scope, Option.map_map]) h
  cases hm with
  | @document document _ _ => exact .document document h
  | scope name hp _ => exact .scope name _ _ (by rw [hp]; rfl) h
  | name hn => exact haside (.nextName hn)
  | child hc => exact haside (.addChild hc)
  | @entry σ sc e tags explicit id _ hσ _ _ hok =>
    obtain ⟨τ, hl⟩ := hs.leadsUp hσ
    obtain ⟨hcarried, -⟩ := (registerEntry_carried tags explicit hl.nodup).of_ok hok
    exact .other hcarried.map_place h
  | tag hok => exact haside ((registerTag_aside _ _ _ _ _ r).of_ok hok)
  | block hs hok => exact haside ((registerBlock_aside _ _ hs).of_ok hok)
  | value binding => exact haside (.addValue r binding)
  | setValue σ name value => exact haside (.setValue r σ name value)
  | found e hf => exact haside (.found e hf)

theorem Reached.placed (h : r.Reached) : r.Placed := by
  obtain ⟨rootType, hm⟩ := h
  induction hm with
  | refl => exact .start rootType
  | tail hms hm ih => exact hm.placed (Reached.synced ⟨rootType, hms⟩) ih

/-- A scope has no name or lies behind its parent, whose full name comes before its name. -/
theorem Placed.place (h : r.Placed) {σ : ScopeId} {sc : Scope} (hσ : r.scope? σ = some sc) :
    sc.parent = none ∧ sc.name = "" ∧ sc.fullName = "" ∨ ∃ p outer, sc.parent = some p ∧
      p.index < σ.index ∧ r.scope? p = some outer ∧
      sc.fullName = Path.join outer.fullName sc.name := by
  induction h generalizing σ sc with
  | start rootType => simp [scope?] at hσ
  | @document r document _ ih =>
    obtain ⟨top, hd⟩ := r.addDocument_documented document
    rcases hd.cases hσ with ⟨rfl, rfl⟩ | hσ
    · obtain ⟨hp, -, hn, -, -⟩ := hd.bare
      refine .inl ⟨hp, hn, ?_⟩
      have hfresh : (r.addDocument document).2.scope? r.freshScope =
          some ⟨"", "", document, none, none, [], [], [], [], [], [], []⟩ := by
        simp [addDocument, newScope, scope?]
      cases hfresh.symm.trans hσ
      rfl
    · refine (ih hσ).imp_right ?_
      rintro ⟨p, outer, hp, hlt, hout, hfull⟩
      exact ⟨p, outer, hp, hlt, hd.old hout, hfull⟩
  | @scope r name document parent origin hparent _ ih =>
    obtain ⟨outer, hout⟩ := Option.isSome_iff_exists.1 hparent
    have hgains : Gains r (r.newScope name document (some parent) origin).2
        ⟨name, Path.join outer.fullName name, document, some parent, origin, [], [], [], [], [], [],
          []⟩ := by
      refine .of_scopes ?_ rfl
      simp [newScope, hout]
    rcases hgains.cases hσ with ⟨rfl, rfl⟩ | hσ
    · exact .inr ⟨parent, outer, rfl, index_lt_of_scope? hout, hgains.old hout, rfl⟩
    · refine (ih hσ).imp_right ?_
      rintro ⟨p, outer, hp, hlt, hout, hfull⟩
      exact ⟨p, outer, hp, hlt, hgains.old hout, hfull⟩
  | @other r r' hkeep _ ih =>
    have hback : ∀ {σ sc'}, r'.scope? σ = some sc' →
        ∃ sc, r.scope? σ = some sc ∧ sc.place = sc'.place := fun {σ sc'} h => by
      have heq := hkeep σ
      rw [h, Option.map_some] at heq
      exact Option.map_eq_some_iff.1 heq.symm
    obtain ⟨sc₀, hσ₀, hplace⟩ := hback hσ
    rw [← Scope.parent_eq_of_place hplace, ← Scope.name_eq_of_place hplace,
      ← Scope.fullName_eq_of_place hplace]
    refine (ih hσ₀).imp_right ?_
    rintro ⟨p, outer, hp, hlt, hout, hjoin⟩
    have heq := hkeep p
    rw [hout, Option.map_some] at heq
    obtain ⟨outer', hout', hplace'⟩ := Option.map_eq_some_iff.1 heq
    exact ⟨p, outer', hp, hlt, hout', by rw [Scope.fullName_eq_of_place hplace', hjoin]⟩

/-! ## Nested scopes -/

/-- Scopes from the outside in, the first in the scope `outer` and each of the others in the one
before. They have relative names. -/
def Nested (r : Registry) : ScopeId → List (ScopeId × Scope) → Prop
  | _, [] => True
  | outer, (σ, sc) :: rest => r.scope? σ = some sc ∧ sc.parent = some outer ∧ sc.name ≠ "" ∧
      Path.isAbs sc.name = false ∧ r.Nested σ rest

namespace Nested

variable {τ σ : ScopeId} {top sc : Scope} {path outside inside : List (ScopeId × Scope)}
  {ρ : ScopeId × Scope}

theorem inner (h : r.Nested τ (outside ++ ρ :: inside)) :
    r.scope? ρ.1 = some ρ.2 ∧ r.Nested ρ.1 inside := by
  induction outside generalizing τ with
  | nil => exact ⟨h.1, h.2.2.2.2⟩
  | cons σ rest ih => exact ih h.2.2.2.2

theorem names (h : r.Nested τ path) :
    ∀ n ∈ path.map (·.2.name), n ≠ "" ∧ Path.isAbs n = false := by
  induction path generalizing τ with
  | nil => simp
  | cons σ rest ih =>
    intro n hn
    rcases List.mem_cons.1 hn with rfl | hn
    · exact ⟨h.2.2.1, h.2.2.2.1⟩
    · exact ih h.2.2.2.2 n hn

theorem index_lt (h : r.Nested τ path) (hp : r.Placed) : ∀ ρ ∈ path, τ.index < ρ.1.index := by
  induction path generalizing τ with
  | nil => simp
  | cons σ rest ih =>
    obtain ⟨hσ, hparent, -, -, hrest⟩ := h
    have hlt : τ.index < σ.1.index := by
      rcases hp.place hσ with ⟨hnone, -⟩ | ⟨p, -, hp, hlt, -⟩
      · cases hnone.symm.trans hparent
      · cases hp.symm.trans hparent
        exact hlt
    intro ρ hρ
    rcases List.mem_cons.1 hρ with rfl | hρ
    · exact hlt
    · exact hlt.trans (ih hrest ρ hρ)

theorem nodup (h : r.Nested τ path) (hp : r.Placed) : (path.map Prod.fst).Nodup := by
  induction path generalizing τ with
  | nil => exact List.nodup_nil
  | cons σ rest ih =>
    have hrest := h.2.2.2.2
    refine List.nodup_cons.2 ⟨fun hmem => ?_, ih hrest⟩
    obtain ⟨ρ, hρ, heq⟩ := List.mem_map.1 hmem
    have := hrest.index_lt hp ρ hρ
    rw [heq] at this
    exact Nat.lt_irrefl _ this

/-- The full name of the innermost scope. -/
theorem fullName (h : r.Nested τ path) (hp : r.Placed) (hτ : r.scope? τ = some top)
    (hl : path.getLast? = some (σ, sc)) :
    sc.fullName = (path.map (·.2.name)).foldl Path.join top.fullName := by
  induction path generalizing τ top with
  | nil => cases hl
  | cons ρ rest ih =>
    obtain ⟨hρ, hparent, -, -, hrest⟩ := h
    have hfull : ρ.2.fullName = Path.join top.fullName ρ.2.name := by
      rcases hp.place hρ with ⟨hnone, -⟩ | ⟨p, outer, hp, -, hout, hfull⟩
      · cases hnone.symm.trans hparent
      · cases hp.symm.trans hparent
        cases hτ.symm.trans hout
        exact hfull
    rw [List.map_cons, List.foldl_cons, ← hfull]
    cases rest with
    | nil =>
      cases hl
      rfl
    | cons ρ' rest =>
      rw [List.getLast?_cons_of_ne_nil (List.cons_ne_nil ρ' rest)] at hl
      exact ih hrest hρ hl

/-- The dynamic parents of the innermost scope are the others. -/
theorem chain_eq (h : r.Nested τ path) (hl : (path.map Prod.fst).getLastD τ = σ) (fuel : ℕ) :
    r.chain Scope.parent (path.length + fuel) (some σ) =
      (path.map Prod.fst).reverse ++ r.chain Scope.parent fuel (some τ) := by
  induction path generalizing τ fuel with
  | nil =>
    cases hl
    simp
  | cons ρ rest ih =>
    obtain ⟨hρ, hparent, -, -, hrest⟩ := h
    have hstep : r.chain Scope.parent (fuel + 1) (some ρ.1) =
        ρ.1 :: r.chain Scope.parent fuel (some τ) := by
      rw [chain, hρ, Option.bind_some, hparent]
    have hfuel : (ρ :: rest).length + fuel = rest.length + (fuel + 1) := by
      rw [List.length_cons]
      omega
    rw [hfuel, ih hrest (by rwa [List.map_cons, List.getLastD_cons] at hl), hstep]
    simp

theorem length_add_le (h : r.Nested τ path) (hp : r.Placed)
    (hl : (path.map Prod.fst).getLastD τ = σ) : τ.index + path.length ≤ σ.index := by
  induction path generalizing τ with
  | nil =>
    cases hl
    exact Nat.le_refl _
  | cons ρ rest ih =>
    have hlt := h.index_lt hp ρ (by simp)
    have hrest := ih h.2.2.2.2 (by rwa [List.map_cons, List.getLastD_cons] at hl)
    rw [List.length_cons]
    omega

theorem dynamicChain_eq (h : r.Nested τ path) (hp : r.Placed) (hτ : r.scope? τ = some top)
    (htop : top.parent = none) (hσ : (r.scope? σ).isSome)
    (hl : (path.map Prod.fst).getLastD τ = σ) :
    r.dynamicChain σ = (path.map Prod.fst).reverse ++ [τ] := by
  obtain ⟨sc, hsc⟩ := Option.isSome_iff_exists.1 hσ
  have hle := h.length_add_le hp hl
  have hlt := index_lt_of_scope? hsc
  obtain ⟨fuel, hfuel⟩ : ∃ fuel, r.scopes.size = path.length + (fuel + 1) :=
    ⟨r.scopes.size - path.length - 1, by omega⟩
  rw [dynamicChain, hfuel, h.chain_eq hl, chain, hτ, Option.bind_some, htop]
  cases fuel <;> rfl

/-- A tag that is handed on gets the names of the scopes in front. -/
theorem outward_eq (h : r.Nested τ path) {t : String} (ht : t ≠ "") (hrel : Path.isAbs t = false)
    (label : String) : r.outward false (path.map Prod.fst).reverse [t, label] =
      [(path.map (·.2.name)).foldr Path.join t, label] := by
  induction path generalizing τ with
  | nil => rfl
  | cons ρ rest ih =>
    obtain ⟨hρ, -, hne, hname, hrest⟩ := h
    have hrel' : Path.isAbs ((rest.map (·.2.name)).foldr Path.join t) = false :=
      Path.isAbs_foldr_join hrest.names ht hrel
    have hlift : ρ.2.lift ((rest.map (·.2.name)).foldr Path.join t) =
        Path.join ρ.2.name ((rest.map (·.2.name)).foldr Path.join t) := by
      rw [Scope.lift, if_neg (by simp [hrel', hne])]
    rw [List.map_cons, List.reverse_cons, outward_append, ih hrest, outward, outward, handOn, hρ]
    simp only [Scope.liftAll, List.map_cons, List.foldr_cons, ← hlift]
    rfl

end Nested

/-- What a scope knows by itself is found from it, with or without the path of its document. -/
theorem lookupTarget_of_lookup {σ : ScopeId} {sc : Scope} {a path : String} {i : EntryId}
    (hσ : r.scope? σ = some sc) (hi : sc.anchors.lookup a = some i) (hne : a ≠ "")
    (hpath : path = "" ∨ path = sc.document) :
    r.lookupTarget σ (.place path a) = some (.entry i) := by
  obtain ⟨fuel, hfuel⟩ : ∃ fuel, r.scopes.size = fuel + 1 :=
    ⟨r.scopes.size - 1, by have := index_lt_of_scope? hσ; omega⟩
  have hanchor : sc.anchorOf (.place path a) = a := if_pos (.inr hpath)
  have hat : atAnchor Scope.anchors (.place path a) sc = some i := by
    rw [atAnchor, hanchor, if_neg hne, hi]
  have hfind : r.findStatic σ (atAnchor Scope.anchors (.place path a)) = some i := by
    rw [findStatic, staticChain, hfuel, chain, List.findSome?_cons, hσ, Option.bind_some, hat]
  rw [lookupTarget, hfind]
  rfl

/-- A tag `t` of a labeled node in nested scopes becomes an anchor with the full name of the
innermost one in front, both for its document and everywhere. In each scope on the way, the names of
those inside it stand in front. -/
theorem Placed.registerEntry_named (hp : r.Placed) {τ σ : ScopeId} {top sc : Scope}
    (hτ : r.scope? τ = some top) (htop : top.parent = none) {path : List (ScopeId × Scope)}
    (hpath : r.Nested τ path) (hl : path.getLast? = some (σ, sc)) {t : String} (ht : t ≠ "")
    (hrel : Path.isAbs t = false) {e : Entry} {label : String} {id : EntryId}
    (hok : registerEntry σ e [t, label] false r = .ok id r') :
    r'.entryAt? id = some { e with anchors := [Path.join sc.fullName t, label] } ∧
    (∀ outside ρ inside, path = outside ++ ρ :: inside → ∀ p, p = "" ∨ p = ρ.2.document →
      r'.lookupTarget ρ.1 (.place p ((inside.map (·.2.name)).foldr Path.join t)) =
        some (.entry id)) ∧
    (∀ p, p = "" ∨ p = top.document →
      r'.lookupTarget τ (.place p (Path.join sc.fullName t)) = some (.entry id)) ∧
    r'.address? (.place e.document (Path.join sc.fullName t)) =
      some ⟨e.document, Path.join sc.fullName t, .entry id⟩ := by
  have hne : path ≠ [] := by
    rintro rfl
    cases hl
  have hlast : (path.map Prod.fst).getLastD τ = σ := by
    rw [List.getLastD_eq_getLast?, List.getLast?_map, hl]
    rfl
  obtain ⟨outside, hsplit⟩ := List.getLast?_eq_some_iff.1 hl
  have hσ := (hsplit ▸ hpath : r.Nested τ (outside ++ [(σ, sc)])).inner.1
  have hchain := hpath.dynamicChain_eq hp hτ htop (by rw [hσ]; rfl) hlast
  have hnodup : (r.dynamicChain σ).Nodup := by
    rw [hchain]
    refine List.nodup_append.2 ⟨(List.reverse_perm _).nodup_iff.2 (hpath.nodup hp), by simp, ?_⟩
    rintro _ hmem ρ hρ rfl
    obtain ⟨ρ', hρ', heq⟩ := List.mem_map.1 (List.mem_reverse.1 hmem)
    have := hpath.index_lt hp ρ' hρ'
    rw [heq, List.mem_singleton.1 hρ] at this
    exact Nat.lt_irrefl _ this
  obtain ⟨hcarried, hrecorded⟩ := (registerEntry_carried [t, label] false hnodup).of_ok hok
  rw [hchain] at hcarried hrecorded
  -- joined from the outside in, as the full name is, and from the inside out, as the tag is
  obtain ⟨-, hname, hfull⟩ : top.parent = none ∧ top.name = "" ∧ top.fullName = "" := by
    rcases hp.place hτ with h | ⟨p, -, hparent, -⟩
    · exact h
    · cases htop.symm.trans hparent
  have hjoin : Path.join sc.fullName t = (path.map (·.2.name)).foldr Path.join t := by
    rw [hpath.fullName hp hτ hl, hfull, Path.join_foldl "" hpath.names ht]
    exact Path.join_empty_foldr (by simpa using hne) (fun n hn => (hpath.names n hn).1) ht
  have hout : r.outward false (path.map Prod.fst).reverse [t, label] =
      [Path.join sc.fullName t, label] := by rw [hpath.outward_eq ht hrel, hjoin]
  have hend : r.outward false ((path.map Prod.fst).reverse ++ [τ]) [t, label] =
      [Path.join sc.fullName t, label] := by
    rw [outward_append, hout, outward, outward, handOn, hτ]
    exact Scope.liftAll_eq hname
  rw [hend] at hrecorded
  have hjoinne : Path.join sc.fullName t ≠ "" := Path.join_ne_empty _ ht
  refine ⟨by rw [hrecorded.entry, if_pos rfl], ?_, ?_, ?_⟩
  · rintro outside ρ inside rfl p hdoc
    obtain ⟨hρ, hinside⟩ := hpath.inner
    obtain ⟨sc', hsc', hplace, hanchors, -⟩ := hcarried.scope (inside.map Prod.fst).reverse ρ.1
      ((outside.map Prod.fst).reverse ++ [τ]) (by simp) ρ.2 hρ
    rw [hinside.outward_eq ht hrel] at hanchors
    refine lookupTarget_of_lookup hsc' ?_ (Path.foldr_join_ne_empty _ ht)
      (Scope.document_eq_of_place hplace ▸ hdoc)
    rw [hanchors, lookup_map_append, if_pos (by simp)]
  · intro p hdoc
    obtain ⟨top', htop', hplace, hanchors, -⟩ := hcarried.scope _ τ [] rfl top hτ
    rw [hout] at hanchors
    refine lookupTarget_of_lookup htop' ?_ hjoinne (Scope.document_eq_of_place hplace ▸ hdoc)
    rw [hanchors, lookup_map_append, if_pos (by simp)]
  · have hrel' : Path.isAbs (Path.join sc.fullName t) = false := by
      rw [hjoin]
      exact Path.isAbs_foldr_join hpath.names ht hrel
    rw [hrecorded.address, if_pos (place_mem_map_linkOf.2 ⟨rfl, by simp, hrel'⟩)]
    rfl

/-- The document `/doc` with a scope `a/./b` and a scope `c` in it. -/
def nestedScopes : Registry :=
  (((({ rootType := "section" } : Registry).addDocument "/doc").2.newScope "a/./b" "/doc"
    (some ⟨0⟩) none).2.newScope "c" "/doc" (some ⟨1⟩) none).2

theorem nestedScopes_placed : nestedScopes.Placed :=
  .scope "c" "/doc" none rfl (.scope "a/./b" "/doc" none rfl (.document "/doc" (.start "section")))

/-- A section in the inner scope gets the clean names of both in front. -/
theorem registerEntry_named_nestedScopes : ∃ id r', registerEntry ⟨2⟩
      { id := ⟨"section", [1]⟩, document := "/doc", location := ⟨"/doc", 3, 1⟩ }
      ["x/../fig", "section-1"] false nestedScopes = .ok id r' ∧
    (r'.entryAt? id).map Entry.anchors = some ["a/b/c/fig", "section-1"] ∧
    r'.lookupTarget ⟨2⟩ (.place "" "x/../fig") = some (.entry id) ∧
    r'.lookupTarget ⟨1⟩ (.place "" "c/fig") = some (.entry id) ∧
    r'.lookupTarget ⟨0⟩ (.place "" "a/b/c/fig") = some (.entry id) := by
  let outer : Scope := ⟨"a/./b", "a/b", "/doc", some ⟨0⟩, none, [], [], [], [], [], [], []⟩
  let inner : Scope := ⟨"c", "a/b/c", "/doc", some ⟨1⟩, none, [], [], [], [], [], [], []⟩
  have htop : nestedScopes.scope? ⟨0⟩ =
    some ⟨"", "", "/doc", none, none, [], [], [], [], [], [], []⟩ := rfl
  have houter : nestedScopes.scope? ⟨1⟩ = some outer := by decide +kernel
  have hinner : nestedScopes.scope? ⟨2⟩ = some inner := by decide +kernel
  have hpath : nestedScopes.Nested ⟨0⟩ [(⟨1⟩, outer), (⟨2⟩, inner)] :=
    ⟨houter, rfl, by decide, by decide +kernel, hinner, rfl, by decide, by decide +kernel, trivial⟩
  have hfull : Path.join inner.fullName "x/../fig" = "a/b/c/fig" := by decide +kernel
  have hpart : Path.join "c" "x/../fig" = "c/fig" := by decide +kernel
  obtain ⟨id, r', hok, -⟩ := exists_ok_and (P := fun _ _ => True) (m := registerEntry ⟨2⟩
    { id := ⟨"section", [1]⟩, document := "/doc", location := ⟨"/doc", 3, 1⟩ }
    ["x/../fig", "section-1"] false) (s := nestedScopes) (by decide +kernel)
  obtain ⟨he, hinside, htop', -⟩ := nestedScopes_placed.registerEntry_named htop rfl hpath rfl
    (by decide) (by decide +kernel) hok
  rw [hfull] at he htop'
  refine ⟨id, r', hok, by rw [he]; rfl, ?_, ?_, htop' "" (.inl rfl)⟩
  · exact hinside [(⟨1⟩, outer)] (⟨2⟩, inner) [] rfl "" (.inl rfl)
  · have hfound := hinside [] (⟨1⟩, outer) [(⟨2⟩, inner)] rfl "" (.inl rfl)
    rwa [List.map_cons, List.map_nil, List.foldr_cons, List.foldr_nil, hpart] at hfound

end Folio.Registry
