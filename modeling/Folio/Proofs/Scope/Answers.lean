import Folio.Proofs.Scope.Moves

/-!
# Answers of registries

What a registry answers is read off its scopes and the index of all documents. If scopes are the
same but for the names of one kind (`Registry.Alike`), everything else is found as before
(`Registry.SameTargets`, `Registry.SameTags`, `Registry.SameBlocks`). Where names of that kind are
new, an answer is the old one or a new one (`SameOr`): the first thing that is found on a chain of
scopes can only change if a new name stands on the chain (`SameOr.findSome?`).
-/

namespace Folio

/-! ## Answers -/

/-- An answer is what it was before, or it is `v`, and then `P` holds. -/
def SameOr {α : Type} (v : α) (P : Prop) (before after : Option α) : Prop :=
  after = before ∨ after = some v ∧ P

namespace SameOr

variable {α β : Type} {v : α} {P Q : Prop} {a a' b b' : Option α}

theorem of_eq (h : a' = a) : SameOr v P a a' := .inl h

theorem of_ite [Decidable P] (h : a' = if P then some v else a) : SameOr v P a a' := by
  split at h
  next hP => exact .inr ⟨h, hP⟩
  next => exact .inl h

theorem mono (h : SameOr v P a a') (hPQ : P → Q) : SameOr v Q a a' :=
  h.imp_right (And.imp_right hPQ)

theorem map (h : SameOr v P a a') (f : α → β) : SameOr (f v) P (a.map f) (a'.map f) := by
  rcases h with rfl | ⟨rfl, hP⟩
  · exact .inl rfl
  · exact .inr ⟨rfl, hP⟩

theorem or (h : SameOr v P a a') (h' : SameOr v Q b b') : SameOr v (P ∨ Q) (a.or b) (a'.or b') := by
  rcases h with rfl | ⟨rfl, hP⟩
  · cases a' with
    | some a => exact .inl rfl
    | none => exact h'.mono .inr
  · exact .inr ⟨rfl, .inl hP⟩

/-- The first answer of a list is the first one before, or there is a new one in the list. -/
theorem findSome? {xs : List β} {f g : β → Option α} {P : β → Prop}
    (h : ∀ x ∈ xs, SameOr v (P x) (f x) (g x)) :
    SameOr v (∃ x ∈ xs, P x) (xs.findSome? f) (xs.findSome? g) := by
  induction xs with
  | nil => exact .inl rfl
  | cons x xs ih =>
    have hx := h x List.mem_cons_self
    have hxs := ih fun y hy => h y (List.mem_cons_of_mem x hy)
    rw [List.findSome?_cons, List.findSome?_cons]
    rcases hx with heq | ⟨hnew, hP⟩
    · rw [heq]
      cases f x with
      | some a => exact .inl rfl
      | none => exact hxs.mono fun ⟨y, hy, hP⟩ => ⟨y, List.mem_cons_of_mem x hy, hP⟩
    · rw [hnew]
      exact .inr ⟨rfl, x, List.mem_cons_self, hP⟩

end SameOr

namespace Scope

/-- A scope without its tags. -/
def tagless (sc : Scope) : Scope := { sc with tags := [] }

/-- A scope without its blocks. -/
def blockless (sc : Scope) : Scope := { sc with blocks := [] }

/-- A scope without the names of its labeled nodes. -/
def idless (sc : Scope) : Scope := { sc with ids := [], anchors := [] }

end Scope

namespace Registry

variable {r r' r'' : Registry} {σ : ScopeId}

/-! ## Scopes that are alike -/

/-- The scopes are the same but for what `erase` takes away. -/
def Alike (erase : Scope → Scope) (r r' : Registry) : Prop :=
  ∀ σ, (r'.scope? σ).map erase = (r.scope? σ).map erase

namespace Alike

variable {erase : Scope → Scope}

theorem refl (r : Registry) : Alike erase r r := fun _ => rfl

theorem trans (h : Alike erase r r') (h' : Alike erase r' r'') : Alike erase r r'' :=
  fun σ => (h' σ).trans (h σ)

theorem of_scopes (h : r'.scopes = r.scopes) : Alike erase r r' :=
  fun σ => by rw [scope?, scope?, h]

theorem modifyScope (r : Registry) (σ : ScopeId) {f : Scope → Scope}
    (hf : ∀ sc, erase (f sc) = erase sc) : Alike erase r (r.modifyScope σ f) := by
  intro τ
  rw [scope?_modifyScope]
  split
  · rw [Option.map_map]
    exact congrArg (Option.map · (r.scope? τ)) (funext hf)
  · rfl

theorem size_eq (h : Alike erase r r') : r'.scopes.size = r.scopes.size := by
  have hiff : ∀ i, r'.scopes.size ≤ i ↔ r.scopes.size ≤ i := fun i => by
    have heq := congrArg (·.isNone = true) (h ⟨i⟩)
    simpa [scope?] using heq
  exact Nat.le_antisymm ((hiff _).2 (Nat.le_refl _)) ((hiff _).1 (Nat.le_refl _))

/-- What does not look at the rest is the same. -/
theorem bind_eq {α : Type} (h : Alike erase r r') {f : Scope → Option α}
    (hf : ∀ sc, f (erase sc) = f sc) (σ : ScopeId) :
    (r'.scope? σ).bind f = (r.scope? σ).bind f := by
  have hmap : ∀ o : Option Scope, o.bind f = (o.map erase).bind f := fun o => by
    cases o with
    | none => rfl
    | some sc => exact (hf sc).symm
  rw [hmap, hmap (r.scope? σ), h σ]

theorem map_eq {α : Type} (h : Alike erase r r') {f : Scope → α}
    (hf : ∀ sc, f (erase sc) = f sc) (σ : ScopeId) : (r'.scope? σ).map f = (r.scope? σ).map f := by
  have heq := h.bind_eq (f := some ∘ f) (fun sc => congrArg some (hf sc)) σ
  rwa [← Option.map_eq_bind, ← Option.map_eq_bind] at heq

theorem chain_eq (h : Alike erase r r') {up : Scope → Option ScopeId}
    (hup : ∀ sc, up (erase sc) = up sc) (fuel : ℕ) (start : Option ScopeId) :
    r'.chain up fuel start = r.chain up fuel start := by
  induction fuel generalizing start with
  | zero => cases start <;> rfl
  | succ fuel ih =>
    cases start with
    | none => rfl
    | some σ => rw [chain, chain, h.bind_eq hup, ih]

theorem staticChain_eq (h : Alike erase r r') (ho : ∀ sc, (erase sc).origin = sc.origin)
    (σ : ScopeId) : r'.staticChain σ = r.staticChain σ := by
  rw [staticChain, staticChain, h.size_eq, h.chain_eq ho]

theorem findStatic_eq {α : Type} (h : Alike erase r r') (ho : ∀ sc, (erase sc).origin = sc.origin)
    {f : Scope → Option α} (hf : ∀ sc, f (erase sc) = f sc) (σ : ScopeId) :
    r'.findStatic σ f = r.findStatic σ f := by
  rw [findStatic, findStatic, h.staticChain_eq ho]
  simp only [h.bind_eq hf]

end Alike

/-! ## Looking up in scopes -/

theorem isSome_scope?_iff : (r.scope? σ).isSome ↔ σ.index < r.scopes.size := by simp [scope?]

/-- A chain of parents starts with the scope itself. -/
theorem exists_chain_eq (hσ : (r.scope? σ).isSome) (up : Scope → Option ScopeId) :
    ∃ rest, r.chain up r.scopes.size (some σ) = σ :: rest := by
  obtain ⟨n, hn⟩ := Nat.exists_eq_succ_of_ne_zero
    (Nat.ne_of_gt (Nat.lt_of_le_of_lt (Nat.zero_le _) (isSome_scope?_iff.1 hσ)))
  rw [hn]
  exact ⟨_, rfl⟩

/-- What a scope knows is found from there. -/
theorem findStatic_of_bind {α : Type} {f : Scope → Option α} {v : α}
    (h : (r.scope? σ).bind f = some v) : r.findStatic σ f = some v := by
  have hσ : (r.scope? σ).isSome := by
    cases hsc : r.scope? σ with
    | none =>
      rw [hsc] at h
      cases h
    | some sc => rfl
  obtain ⟨rest, hchain⟩ := exists_chain_eq hσ Scope.origin
  rw [findStatic, staticChain, hchain, List.findSome?_cons, h]

variable {erase : Scope → Scope}

/-- Answers on a static chain are new where scopes give new ones. -/
theorem Alike.findStatic_sameOr {α : Type} (h : Alike erase r r')
    (ho : ∀ sc, (erase sc).origin = sc.origin) {f : Scope → Option α} {v : α} {P : ScopeId → Prop}
    (hf : ∀ ρ, SameOr v (P ρ) ((r.scope? ρ).bind f) ((r'.scope? ρ).bind f)) (σ : ScopeId) :
    SameOr v (∃ ρ ∈ r.staticChain σ, P ρ) (r.findStatic σ f) (r'.findStatic σ f) := by
  rw [findStatic, findStatic, h.staticChain_eq ho]
  exact .findSome? fun ρ _ => hf ρ

/-- The block that a link leads to behind all scopes. -/
def indexedBlock (r : Registry) : Link → Option BlockId
  | .tag name => r.index.blocks.lookup name
  | .place path anchor => ((r.documentScope? path).bind r.scope?).bind (·.blocks.lookup anchor)

theorem lookupBlock_eq (r : Registry) (σ : ScopeId) (link : Link) : r.lookupBlock σ link =
    (r.findStatic σ (atAnchor Scope.blocks link)).or (r.indexedBlock link) := by
  cases link <;> rfl

theorem atAnchor_congr {α : Type} {entries : Scope → List (String × α)} {link : Link}
    {sc sc' : Scope} (hd : sc'.document = sc.document) (he : entries sc' = entries sc) :
    atAnchor entries link sc' = atAnchor entries link sc := by
  rw [atAnchor, atAnchor, Scope.anchorOf, Scope.anchorOf, hd, he]

/-- A link finds what stands under its anchor, if it has one in the scope. -/
theorem Alike.atAnchor_sameOr {α : Type} (h : Alike erase r r')
    (hd : ∀ sc, (erase sc).document = sc.document) {entries : Scope → List (String × α)}
    {link : Link} {v : α} {P : Prop} {ρ : ScopeId}
    (hf : SameOr v P ((r.scope? ρ).bind fun sc => (entries sc).lookup link.anchor)
      ((r'.scope? ρ).bind fun sc => (entries sc).lookup link.anchor)) :
    SameOr v P ((r.scope? ρ).bind (atAnchor entries link))
      ((r'.scope? ρ).bind (atAnchor entries link)) := by
  have hdocument := h.map_eq (f := Scope.document) hd ρ
  cases hρ : r.scope? ρ with
  | none =>
    rw [hρ, Option.map_none, Option.map_eq_none_iff] at hdocument
    rw [hdocument]
    exact .of_eq rfl
  | some sc =>
    rw [hρ, Option.map_some] at hdocument
    obtain ⟨sc', hρ', hdoc⟩ := Option.map_eq_some_iff.1 hdocument
    rw [hρ, hρ'] at hf
    rw [hρ', Option.bind_some, Option.bind_some, atAnchor, atAnchor, Scope.anchorOf, Scope.anchorOf,
      hdoc]
    split
    next h =>
      split
      · exact .of_eq rfl
      · exact hf
    · rw [if_pos rfl]
      exact .of_eq rfl

/-! ## Answers that stay -/

/-- Labeled nodes are found as before. -/
structure SameTargets (r r' : Registry) : Prop where
  target : ∀ σ link, r'.lookupTarget σ link = r.lookupTarget σ link
  address : ∀ link, r'.address? link = r.address? link
  root : ∀ document, r'.root? document = r.root? document
  entriesOf : ∀ document, r'.entriesOf document = r.entriesOf document

/-- Tags are found as before. -/
def SameTags (r r' : Registry) : Prop :=
  ∀ σ typ tag, r'.lookupTag σ typ tag = r.lookupTag σ typ tag

/-- Blocks are found as before. -/
def SameBlocks (r r' : Registry) : Prop := ∀ σ link, r'.lookupBlock σ link = r.lookupBlock σ link

/-- Everything that can be registered is found as before. -/
structure SameAnswers (r r' : Registry) : Prop extends SameTargets r r' where
  tags : SameTags r r'
  blocks : SameBlocks r r'

theorem Alike.sameTargets (h : Alike erase r r') (ho : ∀ sc, (erase sc).origin = sc.origin)
    (hd : ∀ sc, (erase sc).document = sc.document) (ha : ∀ sc, (erase sc).anchors = sc.anchors)
    (haddresses : r'.index.addresses = r.index.addresses) (hroots : r'.index.roots = r.index.roots)
    (hentries : r'.entries = r.entries) : SameTargets r r' where
  target σ link := by
    have hf : ∀ sc, atAnchor Scope.anchors link (erase sc) = atAnchor Scope.anchors link sc :=
      fun sc => atAnchor_congr (hd sc) (ha sc)
    rw [lookupTarget, lookupTarget, h.findStatic_eq ho hf, address?, address?, haddresses]
  address link := by rw [address?, address?, haddresses]
  root document := by rw [root?, root?, hroots]
  entriesOf document := by rw [Registry.entriesOf, Registry.entriesOf, hentries]

theorem Alike.sameTags (h : Alike erase r r') (ho : ∀ sc, (erase sc).origin = sc.origin)
    (ht : ∀ sc, (erase sc).tags = sc.tags) (htags : r'.index.tags = r.index.tags) :
    SameTags r r' := by
  intro σ typ tag
  have hf : ∀ sc, (erase sc).tags.lookup (typ, tag) = sc.tags.lookup (typ, tag) :=
    fun sc => by rw [ht]
  rw [lookupTag, lookupTag, h.findStatic_eq ho hf, htags]

theorem Alike.sameBlocks (h : Alike erase r r') (ho : ∀ sc, (erase sc).origin = sc.origin)
    (hd : ∀ sc, (erase sc).document = sc.document) (hb : ∀ sc, (erase sc).blocks = sc.blocks)
    (hblocks : r'.index.blocks = r.index.blocks)
    (hdocuments : r'.index.documents = r.index.documents) : SameBlocks r r' := by
  intro σ link
  have hf : ∀ sc, atAnchor Scope.blocks link (erase sc) = atAnchor Scope.blocks link sc :=
    fun sc => atAnchor_congr (hd sc) (hb sc)
  rw [lookupBlock_eq, lookupBlock_eq, h.findStatic_eq ho hf]
  congr 1
  cases link with
  | tag name => exact congrArg (List.lookup name) hblocks
  | place path anchor =>
    have hg : ∀ sc, (erase sc).blocks.lookup anchor = sc.blocks.lookup anchor :=
      fun sc => by rw [hb]
    rw [indexedBlock, indexedBlock, documentScope?, documentScope?, hdocuments, Option.bind_assoc,
      Option.bind_assoc]
    exact congrArg (Option.bind (r.index.documents.lookup path)) (funext (h.bind_eq hg))

end Registry

end Folio
