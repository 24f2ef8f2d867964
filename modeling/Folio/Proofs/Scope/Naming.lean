import Folio.Proofs.Numbering.IdTexts
import Folio.Proofs.Scope.Synced
import Folio.Proofs.Scope.Values

/-!
# Names of scopes

Registering nodes, tags, blocks and values fills the scopes that are there (`Registry.Fills`). The
scopes below them, and how often names were given to these, change only when an expansion opens a
scope.

Such a scope has a name of its own, or the name of its block with a number behind it. Numbers go up
for each name, so numbered names are different, and a name of its own is given only once
(`Registry.nextNames_pairwise`). Nothing is said of the two together: a name of its own can be
written like a numbered one.
-/

namespace Folio

namespace Scope

variable {sc sc' : Scope}

/-- A scope without what is registered in it. -/
def shell (sc : Scope) : Scope :=
  { sc with ids := [], anchors := [], blocks := [], tags := [], values := [] }

theorem place_eq_of_shell (h : sc'.shell = sc.shell) : sc'.place = sc.place := by
  have heq := congrArg place h
  exact heq

theorem children_eq_of_shell (h : sc'.shell = sc.shell) : sc'.children = sc.children := by
  have heq := congrArg children h
  exact heq

end Scope

namespace Registry

variable {r r' r'' : Registry}

/-! ## Filling scopes -/

/-- Scopes are the same but for what is registered in them, and documents have the same scopes. -/
structure Fills (r r' : Registry) : Prop where
  scope : ∀ σ, (r'.scope? σ).map Scope.shell = (r.scope? σ).map Scope.shell
  documents : r'.index.documents = r.index.documents

namespace Fills

theorem refl (r : Registry) : Fills r r := ⟨fun _ => rfl, rfl⟩

theorem symm (h : Fills r r') : Fills r' r := ⟨fun σ => (h.scope σ).symm, h.documents.symm⟩

theorem trans (h : Fills r r') (h' : Fills r' r'') : Fills r r'' :=
  ⟨fun σ => (h'.scope σ).trans (h.scope σ), h'.documents.trans h.documents⟩

theorem exists_scope? (h : Fills r r') {σ : ScopeId} {sc : Scope} (hσ : r.scope? σ = some sc) :
    ∃ sc', r'.scope? σ = some sc' ∧ sc'.shell = sc.shell := by
  have heq := h.scope σ
  rw [hσ, Option.map_some] at heq
  exact Option.map_eq_some_iff.1 heq

theorem documentScope?_eq (h : Fills r r') (d : String) :
    r'.documentScope? d = r.documentScope? d := by
  rw [documentScope?, documentScope?, h.documents]

theorem stays (h : Fills r r') : Stays r r' where
  scope σ sc hσ := by
    obtain ⟨sc', hσ', hs⟩ := h.exists_scope? hσ
    exact ⟨sc', hσ', Scope.place_eq_of_shell hs⟩
  document d σ hd := (h.documentScope?_eq d).trans hd

/-- Nothing changes in the scopes. -/
theorem of_eq (hs : r'.scopes = r.scopes) (hd : r'.index.documents = r.index.documents) :
    Fills r r' := ⟨fun σ => by rw [scope?, scope?, hs], hd⟩

theorem modifyScope (r : Registry) (σ : ScopeId) {f : Scope → Scope}
    (hf : ∀ sc, (f sc).shell = sc.shell) : Fills r (r.modifyScope σ f) where
  scope τ := by
    rw [scope?_modifyScope]
    split
    · rw [Option.map_map]
      exact congrArg (Option.map · (r.scope? τ)) (funext hf)
    · rfl
  documents := rfl

theorem setValue (r : Registry) (σ : ScopeId) (name : String) (value : ValueId) :
    Fills r (r.setValue σ name value) := .modifyScope r σ fun _ => rfl

end Fills

theorem registerIn_fills (σ : ScopeId) (id : EntryId) (e : Entry) (tags : List String)
    (r : Registry) : After True (registerIn σ id e tags) r fun _ r' => Fills r r' := by
  unfold registerIn
  rw [After.bind_iff, After.get_iff]
  cases r.scope? σ with
  | none => exact .refl r
  | some sc =>
    dsimp only
    split
    · exact trivial
    · split
      · exact trivial
      · exact .modifyScope r σ fun _ => rfl

theorem registerUp_fills (id : EntryId) (e : Entry) (explicit : Bool) (scopes : List ScopeId)
    (tags : List String) (r : Registry) :
    After True (registerUp id e explicit scopes tags) r fun _ r' => Fills r r' := by
  induction scopes generalizing tags r with
  | nil => exact .refl r
  | cons σ rest ih =>
    unfold registerUp
    rw [After.bind_iff]
    refine (registerIn_fills σ id e tags r).mono fun _ r₁ h₁ => ?_
    rw [After.bind_iff, After.get_iff]
    exact (ih _ r₁).mono fun _ _ h => h₁.trans h

theorem registerAddress_fills (id : EntryId) (e : Entry) (tag : String) (r : Registry) :
    After True (registerAddress id e tag) r fun _ r' => Fills r r' := by
  unfold registerAddress
  rw [After.bind_iff, After.get_iff]
  dsimp only
  split
  · exact trivial
  · exact .of_eq rfl rfl

theorem registerEntry_fills (σ : ScopeId) (e : Entry) (tags : List String) (explicit : Bool)
    (r : Registry) : After True (registerEntry σ e tags explicit) r fun _ r' => Fills r r' := by
  unfold registerEntry
  rw [After.bind_iff, After.get_iff]
  dsimp only
  rw [After.bind_iff, After.set_iff, After.bind_iff]
  have h₀ : Fills r { r with entries := r.entries.push e } := .of_eq rfl rfl
  refine (registerUp_fills _ e explicit _ tags _).mono fun tags' r₁ h₁ => ?_
  rw [After.bind_iff]
  refine (After.forM (I := fun r' => Fills r r') (fun tag _ r' h' => ?_) (h₀.trans h₁)).mono
    fun _ r₂ h₂ => ?_
  · exact (registerAddress_fills _ e tag r').mono fun _ _ h => h'.trans h
  · rw [After.bind_iff, After.modify_iff, After.bind_iff, After.modify_iff, After.pure_iff]
    refine h₂.trans ?_
    split <;> exact .of_eq rfl rfl

theorem registerTagUp_fills (typ : String) (e : TagEntry) (explicit : Bool)
    (scopes : List ScopeId) (document tag : String) (r : Registry) :
    After True (registerTagUp typ e explicit scopes document tag) r fun _ r' => Fills r r' := by
  induction scopes generalizing document tag r with
  | nil => exact .refl r
  | cons σ rest ih =>
    unfold registerTagUp
    rw [After.bind_iff, After.get_iff]
    split
    · exact ih document tag r
    · split
      · exact trivial
      · rw [After.bind_iff, After.set_iff]
        have h : Fills r (r.modifyScope σ fun sc =>
            { sc with tags := ((typ, tag), e) :: sc.tags }) := .modifyScope r σ fun _ => rfl
        exact (ih _ _ _).mono fun _ _ h' => h.trans h'

theorem registerTag_fills (σ : ScopeId) (typ tag : String) (e : TagEntry) (explicit : Bool)
    (r : Registry) :
    After True (registerTag σ typ tag e explicit) r fun _ r' => Fills r r' := by
  unfold registerTag
  rw [After.bind_iff, After.get_iff, After.bind_iff]
  refine (registerTagUp_fills typ e explicit (r.dynamicChain σ) "" tag r).mono ?_
  rintro ⟨document, tag⟩ r' h
  dsimp only
  rw [After.bind_iff, After.get_iff]
  split
  · exact trivial
  · exact h.trans (.of_eq rfl rfl)

theorem registerBlockUp_fills (tag : String) (location : Location) (id : BlockId)
    (scopes : List ScopeId) (r : Registry) :
    After True (registerBlockUp tag location id scopes) r fun _ r' => Fills r r' := by
  induction scopes generalizing r with
  | nil =>
    unfold registerBlockUp
    rw [After.bind_iff, After.get_iff]
    split
    · exact trivial
    · exact .of_eq rfl rfl
  | cons σ rest ih =>
    unfold registerBlockUp
    rw [After.bind_iff, After.get_iff]
    dsimp only
    split
    · exact trivial
    · rw [After.bind_iff, After.set_iff]
      have h : Fills r (r.modifyScope σ fun sc => { sc with blocks := (tag, id) :: sc.blocks }) :=
        .modifyScope r σ fun _ => rfl
      split
      · exact (ih _).mono fun _ _ h' => h.trans h'
      · exact h

theorem registerBlock_fills (σ : ScopeId) (tag : String) (e : BlockEntry) (r : Registry) :
    After True (registerBlock σ tag e) r fun _ r' => Fills r r' := by
  unfold registerBlock
  rw [After.bind_iff, After.get_iff]
  dsimp only
  rw [After.bind_iff, After.set_iff, After.bind_iff]
  have h : Fills r { r with blocks := r.blocks.push e } := .of_eq rfl rfl
  exact (registerBlockUp_fills tag _ _ _ _).mono fun _ _ h' => h.trans h'

/-! ## Names that are given -/

/-- How often a name was given to a scope below. -/
def count (r : Registry) (σ : ScopeId) (name : String) : Nat :=
  (((r.scope? σ).map Scope.counts).bind (·.lookup name)).getD 0

/-- A name with a number behind it. -/
def numbered (name : String) (n : Nat) : String := name ++ "-" ++ toString n

theorem numbered_inj {name name' : String} {m n : Nat} :
    numbered name m = numbered name' n ↔ name = name' ∧ m = n := by
  refine ⟨fun h => ?_, fun ⟨hname, hn⟩ => by rw [hname, hn]⟩
  have htext : ∀ (name : String) (n : Nat), numbered name n = LabelId.text ⟨name, [n]⟩ :=
    fun name n => by simp [numbered, LabelId.text, LabelId.ordinals]
  have hsplit : (numbered name m).toList.splitOn '-' = (numbered name' n).toList.splitOn '-' := by
    rw [h]
  rw [htext, htext, LabelId.splitOn_text _ (by simp), LabelId.splitOn_text _ (by simp)] at hsplit
  obtain ⟨hname, hdigits⟩ := List.append_inj' hsplit rfl
  exact ⟨LabelId.splitOn_injective hname, toDigits_injective (List.cons.inj hdigits).1⟩

/-- A name of its own is refused if it was given before. -/
theorem nextName_eq (r : Registry) (σ : ScopeId) (name : String) (extend : Bool) :
    r.nextName σ name extend =
      if !extend && r.count σ name ≠ 0 then .error ⟨name⟩
      else .ok (if extend then numbered name (r.count σ name + 1) else name,
        r.modifyScope σ fun sc => { sc with counts := (name, r.count σ name + 1) :: sc.counts }) :=
  rfl

/-- What a name that is given says. -/
theorem given_of_nextName {σ : ScopeId} {name given : String} {extend : Bool}
    (h : r.nextName σ name extend = .ok (given, r')) :
    given = (if extend then numbered name (r.count σ name + 1) else name) ∧
      (extend = false → r.count σ name = 0) ∧
      r' = r.modifyScope σ fun sc =>
        { sc with counts := (name, r.count σ name + 1) :: sc.counts } := by
  rw [nextName_eq] at h
  split at h
  next => cases h
  next hfree =>
    cases h
    refine ⟨rfl, fun hext => ?_, rfl⟩
    simpa [hext] using hfree

theorem isSome_of_nextName {σ : ScopeId} {name given : String} {extend : Bool}
    (hσ : (r.scope? σ).isSome) (h : r.nextName σ name extend = .ok (given, r')) :
    (r'.scope? σ).isSome := by
  obtain ⟨-, -, rfl⟩ := given_of_nextName h
  rwa [scope?_modifyScope, if_pos rfl, Option.isSome_map]

/-- Of the names in a scope that is there, the one that was asked for counts one more. -/
theorem count_of_nextName {σ : ScopeId} {name given : String} {extend : Bool} {sc : Scope}
    (hσ : r.scope? σ = some sc) (h : r.nextName σ name extend = .ok (given, r')) (n : String) :
    r'.count σ n = if n = name then r.count σ name + 1 else r.count σ n := by
  obtain ⟨-, -, rfl⟩ := given_of_nextName h
  rw [count, scope?_modifyScope, if_pos rfl, hσ]
  simp only [Option.map_some, Option.bind_some, Table.lookup_cons]
  split
  · rfl
  · rw [count, hσ]
    rfl

/-! ## Opening scopes -/

/-- A new scope is opened below another one, which gives it its name. -/
structure Opened (r : Registry) (σ : ScopeId) (name given : String) (new : Scope) (r' : Registry) :
    Prop where
  scope : ∀ τ, r'.scope? τ = if τ = r.freshScope then some new else if τ = σ then
    (r.scope? σ).map fun sc => { sc with
      counts := (name, r.count σ name + 1) :: sc.counts
      children := sc.children.put given r.freshScope } else r.scope? τ
  documents : r'.index.documents = r.index.documents
  name : new.name = given
  parent : new.parent = some σ
  children : new.children = []
  /-- There was no scope with the name. -/
  vacant : ∀ sc, r.scope? σ = some sc → sc.children.lookup given = none

theorem exists_opened {σ : ScopeId} {sc : Scope} (hσ : r.scope? σ = some sc)
    {name given document : String} {extend : Bool} {origin : Option ScopeId} {r₁ : Registry}
    (hn : r.nextName σ name extend = .ok (given, r₁))
    (hc : (r₁.newScope given document (some σ) origin).2.addChild σ given r₁.freshScope = .ok r') :
    ∃ new, r.Opened σ name given new r' := by
  obtain ⟨-, -, hr₁⟩ := given_of_nextName hn
  have hfresh : r₁.freshScope = r.freshScope := by simp [hr₁, modifyScope]
  have hne : σ ≠ r.freshScope := ne_freshScope_of_scope? hσ
  obtain ⟨new, hgains, hname, hparent, hchildren⟩ : ∃ new,
      Gains r₁ (r₁.newScope given document (some σ) origin).2 new ∧ new.name = given ∧
        new.parent = some σ ∧ new.children = [] :=
    ⟨_, .of_scopes rfl rfl, rfl, rfl, rfl⟩
  have hdocuments : (r₁.newScope given document (some σ) origin).2.index.documents =
      r.index.documents := by rw [hr₁]; rfl
  rw [hfresh] at hc
  generalize (r₁.newScope given document (some σ) origin).2 = r₂ at hc hgains hdocuments
  have hσ₂ : r₂.scope? σ = some { sc with counts := (name, r.count σ name + 1) :: sc.counts } := by
    rw [hgains.scope, hfresh, if_neg hne, hr₁, scope?_modifyScope, if_pos rfl, hσ]
    rfl
  unfold addChild at hc
  split at hc
  next => cases hc
  next hvacant =>
    cases hc
    refine ⟨new, fun τ => ?_, hdocuments, hname, hparent, hchildren, fun sc' hsc' => ?_⟩
    · rw [scope?_modifyScope]
      by_cases hτ : τ = σ
      · rw [if_pos hτ, hτ, hσ₂, if_neg hne, if_pos rfl, hσ]
        rfl
      · rw [if_neg hτ, if_neg hτ, hgains.scope, hfresh, hr₁, scope?_modifyScope, if_neg hτ]
    · cases hσ.symm.trans hsc'
      rw [hσ₂] at hvacant
      exact Option.not_isSome_iff_eq_none.1 hvacant

theorem Fills.count_eq (h : Fills r r') (σ : ScopeId) (name : String) :
    r'.count σ name = r.count σ name := by
  have hcounts : (r'.scope? σ).map Scope.counts = (r.scope? σ).map Scope.counts := by
    have heq := congrArg (Option.map Scope.counts) (h.scope σ)
    rw [Option.map_map, Option.map_map] at heq
    exact heq
  rw [count, hcounts, count]

namespace Opened

variable {σ : ScopeId} {name given : String} {new : Scope}

theorem fresh (h : r.Opened σ name given new r') : r'.scope? r.freshScope = some new := by
  rw [h.scope, if_pos rfl]

/-- A scope is the new one, or was there before. -/
theorem cases (h : r.Opened σ name given new r') {τ : ScopeId} {sc' : Scope}
    (hτ : r'.scope? τ = some sc') : τ = r.freshScope ∧ sc' = new ∨
      ∃ sc, r.scope? τ = some sc ∧ sc'.place = sc.place ∧
        sc'.children = if τ = σ then sc.children.put given r.freshScope else sc.children := by
  rw [h.scope] at hτ
  split at hτ
  next hfresh => exact .inl ⟨hfresh, (Option.some.inj hτ).symm⟩
  next =>
    split at hτ
    next hσ =>
      obtain ⟨sc, hsc, rfl⟩ := Option.map_eq_some_iff.1 hτ
      exact .inr ⟨sc, hσ ▸ hsc, rfl, (if_pos hσ).symm⟩
    next hσ => exact .inr ⟨sc', hτ, rfl, (if_neg hσ).symm⟩

theorem exists_scope? (h : r.Opened σ name given new r') {τ : ScopeId} {sc : Scope}
    (hτ : r.scope? τ = some sc) : ∃ sc', r'.scope? τ = some sc' ∧ sc'.place = sc.place := by
  rw [h.scope, if_neg (ne_freshScope_of_scope? hτ)]
  split
  next hσ =>
    rw [← hσ, hτ]
    exact ⟨_, rfl, rfl⟩
  next => exact ⟨sc, hτ, rfl⟩

theorem stays (h : r.Opened σ name given new r') : Stays r r' where
  scope _ _ := h.exists_scope?
  document d τ hd := by rwa [documentScope?, h.documents]

theorem count_eq (h : r.Opened σ name given new r') {sc : Scope} (hσ : r.scope? σ = some sc) :
    r'.count σ name = r.count σ name + 1 := by
  rw [count, h.scope, if_neg (ne_freshScope_of_scope? hσ), if_pos rfl, hσ]
  simp

/-- Numbers go up. -/
theorem count_le (h : r.Opened σ name given new r') (τ : ScopeId) (n : String) :
    r.count τ n ≤ r'.count τ n := by
  cases hτ : r.scope? τ with
  | none => simp [count, hτ]
  | some sc =>
    have hne : τ ≠ r.freshScope := ne_freshScope_of_scope? hτ
    by_cases hσ : τ = σ
    · subst hσ
      by_cases hn : n = name
      · subst hn
        exact Nat.le_of_lt (h.count_eq hτ ▸ Nat.lt_succ_self _)
      · simp [count, h.scope, hne, hτ, Table.lookup_cons, hn]
    · rw [count, count, h.scope, if_neg hne, if_neg hσ]

end Opened

/-! ## Names that are asked for one after the other -/

/-- The names that a scope gives, and whether they are numbered, for names that are asked for one
after the other. -/
def nextNames (σ : ScopeId) : List (String × Bool) → Registry → List (String × Bool)
  | [], _ => []
  | (name, extend) :: rest, r =>
    match r.nextName σ name extend with
    | .ok (given, r) => (given, extend) :: nextNames σ rest r
    | .error _ => nextNames σ rest r

/-- A numbered name has a number that was not given before, and a name of its own was not given
before. -/
theorem of_mem_nextNames {σ : ScopeId} {requests : List (String × Bool)} {given : String}
    {numbers : Bool} (hσ : (r.scope? σ).isSome) (h : (given, numbers) ∈ r.nextNames σ requests) :
    if numbers then ∃ name k, r.count σ name ≤ k ∧ given = numbered name (k + 1)
    else r.count σ given = 0 := by
  induction requests generalizing r with
  | nil => cases h
  | cons request rest ih =>
    obtain ⟨name, extend⟩ := request
    unfold nextNames at h
    split at h
    next first r' hfirst =>
      obtain ⟨sc, hsc⟩ := Option.isSome_iff_exists.1 hσ
      obtain ⟨rfl, hfree, -⟩ := given_of_nextName hfirst
      have hcount := count_of_nextName hsc hfirst
      have hσ' : (r'.scope? σ).isSome := isSome_of_nextName hσ hfirst
      rcases List.mem_cons.1 h with h | h
      · obtain ⟨rfl, rfl⟩ := Prod.mk.inj h
        cases numbers
        · exact hfree rfl
        · exact ⟨name, _, Nat.le_refl _, rfl⟩
      · have hrest := ih hσ' h
        cases numbers
        · rw [if_neg (by simp), hcount] at hrest
          rw [if_neg (by simp)]
          split at hrest
          · omega
          · exact hrest
        · obtain ⟨base, k, hle, rfl⟩ := hrest
          refine ⟨base, k, ?_, rfl⟩
          rw [hcount] at hle
          split at hle
          next hbase => exact hbase ▸ Nat.le_of_succ_le hle
          · exact hle
    next => exact ih hσ h

/-- Names that are given in the same way are different ones. -/
theorem nextNames_pairwise {σ : ScopeId} (hσ : (r.scope? σ).isSome)
    (requests : List (String × Bool)) :
    (r.nextNames σ requests).Pairwise fun a b => a.2 = b.2 → a.1 ≠ b.1 := by
  induction requests generalizing r with
  | nil => exact .nil
  | cons request rest ih =>
    obtain ⟨name, extend⟩ := request
    unfold nextNames
    split
    next first r' hfirst =>
      obtain ⟨sc, hsc⟩ := Option.isSome_iff_exists.1 hσ
      obtain ⟨rfl, -, -⟩ := given_of_nextName hfirst
      have hcount := count_of_nextName hsc hfirst
      have hσ' : (r'.scope? σ).isSome := isSome_of_nextName hσ hfirst
      refine .cons ?_ (ih hσ')
      rintro ⟨given, numbers⟩ hmem rfl heq
      have hlater := of_mem_nextNames hσ' hmem
      -- what is given later is not given from the count before
      cases extend
      · obtain rfl : name = given := heq
        rw [if_neg (by simp), hcount, if_pos rfl] at hlater
        omega
      · obtain ⟨base, k, hle, hgiven⟩ := hlater
        obtain ⟨rfl, hk⟩ := numbered_inj.1 (heq.trans hgiven)
        rw [hcount, if_pos rfl] at hle
        omega
    next => exact ih hσ

/-- Whether the names that are given are all different is a question of those of both sorts. -/
theorem nodup_nextNames_iff {σ : ScopeId} (hσ : (r.scope? σ).isSome)
    (requests : List (String × Bool)) : ((r.nextNames σ requests).map Prod.fst).Nodup ↔ ∀ name,
      ¬((name, false) ∈ r.nextNames σ requests ∧ (name, true) ∈ r.nextNames σ requests) := by
  have hsame := nextNames_pairwise hσ requests
  generalize r.nextNames σ requests = given at hsame
  refine ⟨fun h name ⟨hown, hnumbered⟩ => ?_, fun h => ?_⟩
  · exact absurd (List.inj_on_of_nodup_map h hown hnumbered rfl) (by simp)
  · refine List.pairwise_map.2 (hsame.imp_of_mem ?_)
    rintro ⟨name, numbers⟩ ⟨name', numbers'⟩ ha hb hab heq
    obtain rfl : name = name' := heq
    cases numbers <;> cases numbers'
    · exact hab rfl rfl
    · exact h name ⟨ha, hb⟩
    · exact h name ⟨hb, ha⟩
    · exact hab rfl rfl

end Registry

end Folio
