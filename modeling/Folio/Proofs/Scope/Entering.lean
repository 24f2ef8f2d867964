import Folio.Proofs.Paths
import Folio.Proofs.Scope.Moves

/-!
# What a labeled node is registered under

A labeled node is registered in a scope and its dynamic parents under one list of tags in each of
them, and in the index of all documents under the tags that come out of the last one
(`Registry.outward`). An absolute tag is the same everywhere, and the last scope, which has no name,
hands on what it was given.

`Registry.Carried` and `Registry.Recorded` say exactly what `Registry.registerEntry` does
(`Registry.registerEntry_carried`). `Registry.Entered` is what most that follows needs to know.
-/

namespace Folio

namespace Scope

variable {s : Scope} {tags : List String} {tag : String}

theorem mem_liftAll_of_isAbs (h : tag ∈ tags) (ha : Path.isAbs tag = true) :
    tag ∈ s.liftAll tags := by
  have hne : tags ≠ [] := List.ne_nil_of_mem h
  rw [← List.dropLast_append_getLast hne, List.mem_append, List.mem_singleton] at h
  unfold liftAll
  rw [List.mem_append, List.getLast?_eq_some_getLast hne]
  refine h.imp (fun h => List.mem_map.2 ⟨tag, h, ?_⟩) fun h => by simp [h]
  rw [lift, if_pos (.inl ha)]

theorem liftAll_eq (h : s.name = "") : s.liftAll tags = tags := by
  have hl : ∀ t, s.lift t = t := fun t => by rw [lift, if_pos (.inr h)]
  unfold liftAll
  rw [List.map_congr_left (fun t _ => hl t), List.map_id']
  cases tags with
  | nil => rfl
  | cons t ts =>
    rw [List.getLast?_eq_some_getLast (List.cons_ne_nil t ts)]
    exact List.dropLast_append_getLast _

theorem ne_empty_of_mem_liftAll (h : ∀ t ∈ tags, t ≠ "") (ht : tag ∈ s.liftAll tags) :
    tag ≠ "" := by
  unfold liftAll at ht
  rcases List.mem_append.1 ht with ht | ht
  · obtain ⟨t, hmem, rfl⟩ := List.mem_map.1 ht
    have hne := h t (List.dropLast_subset tags hmem)
    unfold lift
    split
    · exact hne
    · exact Path.join_ne_empty _ hne
  · exact h tag (List.mem_of_getLast? (Option.mem_toList.1 ht))

end Scope

namespace Registry

variable {r r' r'' : Registry} {id : EntryId} {e : Entry}

/-- How a tag of a node in a document is addressed from everywhere. -/
def linkOf (document tag : String) : Link :=
  if Path.isAbs tag then .tag tag else .place document tag

theorem lookup_cons_eq_ite {κ α : Type} [DecidableEq κ] [BEq κ] [LawfulBEq κ] (key key' : κ)
    (value : α) (t : List (κ × α)) :
    ((key, value) :: t).lookup key' = if key' = key then some value else t.lookup key' := by
  rw [List.lookup_cons]
  by_cases h : key' = key
  · simp [h]
  · rw [beq_eq_false_iff_ne.2 h, if_neg h]

theorem anchor_linkOf (document tag : String) : (linkOf document tag).anchor = tag := by
  unfold linkOf
  split <;> rfl

/-! ## Along the dynamic parents -/

/-- The tags of a labeled node as a scope hands them on. -/
def handOn (r : Registry) (explicit : Bool) (σ : ScopeId) (tags : List String) : List String :=
  match r.scope? σ with
  | some sc => if explicit then tags else sc.liftAll tags
  | none => tags

/-- The tags of a labeled node behind some scopes, each of which hands them on to the next. -/
def outward (r : Registry) (explicit : Bool) : List ScopeId → List String → List String
  | [], tags => tags
  | σ :: rest, tags => outward r explicit rest (r.handOn explicit σ tags)

variable {explicit : Bool} {scopes : List ScopeId} {tags : List String} {tag : String}

theorem outward_append (inner outer : List ScopeId) (tags : List String) :
    r.outward explicit (inner ++ outer) tags =
      r.outward explicit outer (r.outward explicit inner tags) := by
  induction inner generalizing tags with
  | nil => rfl
  | cons σ rest ih => exact ih _

/-- Only the names of scopes matter for what they hand on. -/
theorem handOn_congr {σ : ScopeId}
    (h : (r'.scope? σ).map Scope.place = (r.scope? σ).map Scope.place) :
    r'.handOn explicit σ tags = r.handOn explicit σ tags := by
  unfold handOn
  cases hσ : r.scope? σ with
  | none =>
    rw [hσ, Option.map_none, Option.map_eq_none_iff] at h
    rw [h]
  | some sc =>
    rw [hσ, Option.map_some] at h
    obtain ⟨sc', hσ', hplace⟩ := Option.map_eq_some_iff.1 h
    have hname := Scope.name_eq_of_place hplace
    have hlift : sc'.lift = sc.lift := funext fun tag => by rw [Scope.lift, Scope.lift, hname]
    rw [hσ']
    simp only [Scope.liftAll, hlift]

theorem outward_congr
    (h : ∀ σ ∈ scopes, (r'.scope? σ).map Scope.place = (r.scope? σ).map Scope.place) :
    r'.outward explicit scopes tags = r.outward explicit scopes tags := by
  induction scopes generalizing tags with
  | nil => rfl
  | cons σ rest ih =>
    rw [outward, outward, handOn_congr (h σ (by simp))]
    exact ih fun τ hτ => h τ (List.mem_cons_of_mem σ hτ)

theorem mem_outward_of_isAbs (h : tag ∈ tags) (ha : Path.isAbs tag = true) :
    tag ∈ r.outward explicit scopes tags := by
  induction scopes generalizing tags with
  | nil => exact h
  | cons σ rest ih =>
    refine ih ?_
    unfold handOn
    split
    · split
      · exact h
      · exact Scope.mem_liftAll_of_isAbs h ha
    · exact h

theorem ne_empty_of_mem_outward (h : ∀ t ∈ tags, t ≠ "")
    (ht : tag ∈ r.outward explicit scopes tags) : tag ≠ "" := by
  induction scopes generalizing tags with
  | nil => exact h tag ht
  | cons σ rest ih =>
    refine ih (fun t hmem => ?_) ht
    unfold handOn at hmem
    split at hmem
    · split at hmem
      · exact h t hmem
      · exact Scope.ne_empty_of_mem_liftAll h hmem
    · exact h t hmem

/-- The scopes `scopes` know a labeled node, each under the tags that the ones before hand on to it,
which are new in it. Nothing else has changed in them, and nothing in other scopes. -/
structure Carried (r r' : Registry) (explicit : Bool) (scopes : List ScopeId) (id : EntryId)
    (tags : List String) : Prop where
  off : ∀ σ, (σ ∈ scopes → r.scope? σ = none) → r'.scope? σ = r.scope? σ
  scope : ∀ inner σ outer, scopes = inner ++ σ :: outer → ∀ sc, r.scope? σ = some sc →
    ∃ sc', r'.scope? σ = some sc' ∧ sc'.place = sc.place ∧
      sc'.anchors = (r.outward explicit inner tags).map (·, id) ++ sc.anchors ∧
      ∀ t ∈ r.outward explicit inner tags, sc.anchors.lookup t = none

theorem Carried.map_place (h : Carried r r' explicit scopes id tags) (σ : ScopeId) :
    (r'.scope? σ).map Scope.place = (r.scope? σ).map Scope.place := by
  by_cases hmem : σ ∈ scopes
  · cases hσ : r.scope? σ with
    | none => rw [h.off σ fun _ => hσ, hσ]
    | some sc =>
      obtain ⟨inner, outer, hsplit⟩ := List.append_of_mem hmem
      obtain ⟨sc', hσ', hplace, -⟩ := h.scope inner σ outer hsplit sc hσ
      rw [hσ', Option.map_some, Option.map_some, hplace]
  · rw [h.off σ fun hmem' => (hmem hmem').elim]

/-- The scopes `scopes` know a labeled node, the last one under the tags `out`. Nothing else has
changed in them, and nothing in other scopes. -/
structure HandedOn (r r' : Registry) (scopes : List ScopeId) (id : EntryId) (out : List String) :
    Prop where
  off : ∀ σ, (σ ∈ scopes → r.scope? σ = none) → r'.scope? σ = r.scope? σ
  scope : ∀ σ ∈ scopes, ∀ sc, r.scope? σ = some sc → ∃ sc' tags, r'.scope? σ = some sc' ∧
    sc'.place = sc.place ∧ sc'.anchors = tags.map (·, id) ++ sc.anchors ∧
    (∀ t ∈ tags, sc.anchors.lookup t = none) ∧ (∀ t ∈ tags, Path.isAbs t = true → t ∈ out) ∧
    (scopes.getLast? = some σ → sc.name = "" → out = tags)

theorem Carried.handedOn (h : Carried r r' explicit scopes id tags) (hn : scopes.Nodup) :
    HandedOn r r' scopes id (r.outward explicit scopes tags) where
  off := h.off
  scope σ hσ sc hsc := by
    obtain ⟨inner, outer, rfl⟩ := List.append_of_mem hσ
    obtain ⟨sc', hsc', hplace, hanchors, hfree⟩ := h.scope inner σ outer rfl sc hsc
    refine ⟨sc', _, hsc', hplace, hanchors, hfree, fun t ht ha => ?_, fun hl hname => ?_⟩
    · rw [outward_append]
      exact mem_outward_of_isAbs ht ha
    · cases outer with
      | nil =>
        rw [outward_append, outward, outward, handOn, hsc]
        dsimp only
        split
        · rfl
        · exact Scope.liftAll_eq hname
      | cons τ rest =>
        rw [List.getLast?_append_of_ne_nil _ (List.cons_ne_nil σ _),
          List.getLast?_cons_of_ne_nil (List.cons_ne_nil τ rest)] at hl
        have hσ' := (List.nodup_cons.1 (List.nodup_append.1 hn).2.1).1
        exact (hσ' (List.mem_of_getLast? hl)).elim

/-- A labeled node was registered in scopes, and not yet in the index. -/
structure Spread (r r' : Registry) (explicit : Bool) (scopes : List ScopeId) (id : EntryId)
    (tags : List String) : Prop extends Carried r r' explicit scopes id tags where
  index : r'.index = r.index
  blocks : r'.blocks = r.blocks
  entries : r'.entries = r.entries

/-- A labeled node is registered in one scope, and then in those behind it. -/
theorem Spread.cons {σ : ScopeId} (h : Spread r r' explicit [σ] id tags)
    (h' : Spread r' r'' explicit scopes id (r.handOn explicit σ tags)) (hσ : σ ∉ scopes) :
    Spread r r'' explicit (σ :: scopes) id tags where
  index := h'.index.trans h.index
  blocks := h'.blocks.trans h.blocks
  entries := h'.entries.trans h.entries
  off τ hτ := by
    have heq : r'.scope? τ = r.scope? τ := h.off τ fun hmem =>
      hτ (by simp [List.mem_singleton.1 hmem])
    exact (h'.off τ fun hmem => heq ▸ hτ (List.mem_cons_of_mem _ hmem)).trans heq
  scope inner τ outer hsplit sc hsc := by
    cases inner with
    | nil =>
      cases hsplit
      obtain ⟨sc', hsc', hrest⟩ := h.scope [] σ [] rfl sc hsc
      exact ⟨sc', (h'.off σ fun hmem => (hσ hmem).elim).trans hsc', hrest⟩
    | cons ρ inner =>
      cases hsplit
      have hτ : τ ≠ σ := fun heq => hσ (by simp [heq])
      have hsc' := (h.off τ fun hmem => (hτ (List.mem_singleton.1 hmem)).elim).trans hsc
      have hout : r'.outward explicit inner (r.handOn explicit σ tags) =
          r.outward explicit (σ :: inner) tags := outward_congr fun ρ _ => h.map_place ρ
      exact hout ▸ h'.scope inner τ outer rfl sc hsc'

theorem registerIn_spread (explicit : Bool) (σ : ScopeId) (tags : List String) (r : Registry) :
    After True (registerIn σ id e tags) r fun _ r' => Spread r r' explicit [σ] id tags := by
  unfold registerIn
  rw [After.bind_iff, After.get_iff]
  cases hσ : r.scope? σ with
  | none =>
    refine ⟨⟨fun _ _ => rfl, fun inner τ outer hsplit sc hsc => ?_⟩, rfl, rfl, rfl⟩
    have hτ : τ ∈ [σ] := by simp [hsplit]
    rw [List.mem_singleton.1 hτ, hσ] at hsc
    cases hsc
  | some sc =>
    dsimp only
    cases htaken : tags.findSome? fun tag => (sc.anchors.lookup tag).map (tag, ·) with
    | some taken => exact trivial
    | none =>
      cases sc.ids.lookup e.id with
      | some other => exact trivial
      | none =>
        refine ⟨⟨fun τ hτ => ?_, fun inner τ outer hsplit sc' hsc' => ?_⟩, rfl, rfl, rfl⟩
        · rw [scope?_modifyScope, if_neg]
          rintro rfl
          cases hσ.symm.trans (hτ (by simp))
        · obtain ⟨rfl, h⟩ : inner = [] ∧ τ :: outer = [σ] := by
            cases inner with
            | nil => exact ⟨rfl, hsplit.symm⟩
            | cons ρ inner => simp at hsplit
          cases h
          cases hσ.symm.trans hsc'
          refine ⟨{ sc with
              ids := (e.id, id) :: sc.ids
              anchors := tags.map (·, id) ++ sc.anchors }, ?_, rfl, rfl, fun t ht => ?_⟩
          · rw [scope?_modifyScope, if_pos rfl, hσ, Option.map_some]
          · simpa using List.findSome?_eq_none_iff.1 htaken t ht

theorem registerUp_spread (explicit : Bool) {scopes : List ScopeId} (hn : scopes.Nodup)
    (tags : List String) (r : Registry) :
    After True (registerUp id e explicit scopes tags) r fun out r' =>
      Spread r r' explicit scopes id tags ∧ out = r.outward explicit scopes tags := by
  induction scopes generalizing tags r with
  | nil => exact ⟨⟨⟨fun _ _ => rfl, by simp⟩, rfl, rfl, rfl⟩, rfl⟩
  | cons σ rest ih =>
    obtain ⟨hσ, hn⟩ := List.nodup_cons.1 hn
    unfold registerUp
    rw [After.bind_iff]
    refine (registerIn_spread explicit σ tags r).mono fun _ r₁ h₁ => ?_
    rw [After.bind_iff, After.get_iff]
    change After True (registerUp id e explicit rest (r₁.handOn explicit σ tags)) r₁ _
    rw [handOn_congr (h₁.map_place σ)]
    refine (ih hn _ r₁).mono fun out r' ⟨h, hout⟩ => ⟨h₁.cons h hσ, hout.trans ?_⟩
    exact outward_congr fun τ _ => h₁.map_place τ

/-! ## The index of all documents -/

/-- A labeled node was put into the index under the tags `out`. Absolute ones are new. -/
structure Published (r r' : Registry) (e : Entry) (id : EntryId) (out : List String) : Prop where
  scopes : r'.scopes = r.scopes
  blocks : r'.blocks = r.blocks
  entries : r'.entries = r.entries
  documents : r'.index.documents = r.index.documents
  address : ∀ link, r'.address? link = if link ∈ out.map (linkOf e.document)
    then some ⟨e.document, link.anchor, .entry id⟩ else r.address? link
  fresh : ∀ t ∈ out, Path.isAbs t = true → ∀ address i, r.address? (.tag t) = some address →
    address.target ≠ .entry i

theorem registerAddress_spec (tag : String) (r : Registry) :
    After True (registerAddress id e tag) r fun _ r' => Published r r' e id [tag] := by
  unfold registerAddress
  rw [After.bind_iff, After.get_iff]
  have hset : (∀ address i, Path.isAbs tag = true → r.address? (.tag tag) = some address →
      address.target ≠ .entry i) → Published r { r with index.addresses :=
        (linkOf e.document tag, ⟨e.document, tag, .entry id⟩) :: r.index.addresses } e id [tag] := by
    refine fun hfresh => ⟨rfl, rfl, rfl, rfl, fun link => ?_, fun t ht ha address i h => ?_⟩
    · refine (lookup_cons_eq_ite _ link _ r.index.addresses).trans ?_
      by_cases h : link = linkOf e.document tag
      · simp [h, anchor_linkOf]
      · simp [h, address?]
    · rw [List.mem_singleton.1 ht] at ha h
      exact hfresh address i ha h
  dsimp only
  split
  · exact trivial
  next hnone =>
    refine hset fun address i ha haddress hi => ?_
    obtain ⟨d, a, target⟩ := address
    cases hi
    refine hnone d a i ha ?_
    rw [if_pos ha]
    exact haddress

theorem registerAddresses_spec (out : List String) (r : Registry) :
    After True (out.forM (registerAddress id e)) r fun _ r' => Published r r' e id out := by
  induction out generalizing r with
  | nil => exact ⟨rfl, rfl, rfl, rfl, fun _ => by simp, by simp⟩
  | cons tag rest ih =>
    rw [After.forM_cons]
    refine (registerAddress_spec tag r).mono fun _ r₁ h₁ => (ih r₁).mono fun _ r' h => ?_
    refine ⟨h.scopes.trans h₁.scopes, h.blocks.trans h₁.blocks, h.entries.trans h₁.entries,
      h.documents.trans h₁.documents, fun link => ?_, fun t ht ha address i haddress => ?_⟩
    · rw [h.address, h₁.address]
      by_cases hr : link ∈ rest.map (linkOf e.document) <;>
        by_cases ht : link = linkOf e.document tag <;> simp [hr, ht]
    · rcases List.mem_cons.1 ht with rfl | ht
      · exact h₁.fresh t (by simp) ha address i haddress
      · -- a tag that was taken is still taken when its turn comes
        intro hi
        have heq := h₁.address (.tag t)
        split at heq
        · exact h.fresh t ht ha _ id heq rfl
        · exact h.fresh t ht ha address i (heq.trans haddress) hi

/-! ## Registering a labeled node -/

/-- A labeled node was put into the index, and into the entries, under the tags `out`. -/
structure Recorded (r r' : Registry) (e : Entry) (id : EntryId) (out : List String) : Prop where
  blocks : r'.blocks = r.blocks
  entry : ∀ i, r'.entryAt? i = if i = id then some { e with anchors := out } else r.entryAt? i
  fresh_id : r.entryAt? id = none
  documents : r'.index.documents = r.index.documents
  address : ∀ link, r'.address? link = if link ∈ out.map (linkOf e.document)
    then some ⟨e.document, link.anchor, .entry id⟩ else r.address? link
  fresh : ∀ t ∈ out, Path.isAbs t = true → ∀ address i, r.address? (.tag t) = some address →
    address.target ≠ .entry i

theorem registerEntry_carried {σ : ScopeId} (tags : List String) (explicit : Bool) {r : Registry}
    (hn : (r.dynamicChain σ).Nodup) :
    After True (registerEntry σ e tags explicit) r fun id r' =>
      Carried r r' explicit (r.dynamicChain σ) id tags ∧
        Recorded r r' e id (r.outward explicit (r.dynamicChain σ) tags) := by
  unfold registerEntry
  rw [After.bind_iff, After.get_iff]
  dsimp only
  rw [After.bind_iff, After.set_iff, After.bind_iff]
  have hpushed : ∀ scopes tags, ({ r with entries := r.entries.push e } : Registry).outward explicit
      scopes tags = r.outward explicit scopes tags := fun scopes tags => outward_congr fun _ _ => rfl
  refine (registerUp_spread explicit hn tags _).mono fun out r₁ ⟨h₁, hout⟩ => ?_
  rw [hpushed] at hout
  rw [After.bind_iff]
  refine (registerAddresses_spec out r₁).mono fun _ r₂ h₂ => ?_
  rw [After.bind_iff, After.modify_iff, After.bind_iff, After.modify_iff, After.pure_iff, ← hout]
  have hentries : r₂.entries = r.entries.push e := h₂.entries.trans h₁.entries
  have haddress : ∀ link, r₁.address? link = r.address? link := fun link => by
    rw [address?, address?, h₁.index]
  -- the labeled nodes that stand for documents do not matter
  have hentered : ∀ (index : GlobalIndex) (r₃ : Registry),
      r₃ = ({ r₂ with index } : Registry).modifyEntry ⟨r.entries.size⟩
        (fun e => { e with anchors := out }) →
      index.addresses = r₂.index.addresses → index.documents = r₂.index.documents →
      Carried r r₃ explicit (r.dynamicChain σ) ⟨r.entries.size⟩ tags ∧
        Recorded r r₃ e ⟨r.entries.size⟩ out := by
    rintro index _ rfl ha hd
    refine ⟨⟨fun τ hτ => ?_, fun inner τ outer hsplit sc hsc => ?_⟩, {
      blocks := h₂.blocks.trans h₁.blocks
      entry := fun i => ?_
      fresh_id := by simp [entryAt?]
      documents := hd.trans (h₂.documents.trans (congrArg GlobalIndex.documents h₁.index))
      address := fun link => ?_
      fresh := fun t ht ha address i h => h₂.fresh t ht ha address i ((haddress _).trans h) }⟩
    · exact (congrArg (·[τ.index]?) h₂.scopes).trans (h₁.off τ hτ)
    · obtain ⟨sc', hsc', hrest⟩ := h₁.scope inner τ outer hsplit sc hsc
      rw [hpushed] at hrest
      exact ⟨sc', (congrArg (·[τ.index]?) h₂.scopes).trans hsc', hrest⟩
    · rw [entryAt?_modifyEntry]
      obtain ⟨i⟩ := i
      simp only [entryAt?, hentries, Array.getElem?_push, EntryId.mk.injEq]
      by_cases hi : i = r.entries.size <;> simp [hi]
    · refine (congrArg (List.lookup link) ha).trans ((h₂.address link).trans ?_)
      rw [haddress]
  by_cases hroot : e.id.typ = r₂.rootType ∧ (r₂.root? e.document).isNone
  · rw [if_pos hroot]
    exact hentered _ _ rfl rfl rfl
  · rw [if_neg hroot]
    exact hentered r₂.index _ rfl rfl rfl

/-- A labeled node was registered in the scopes `scopes`, and in the index under the tags `out`,
which are its anchors. -/
structure Entered (r r' : Registry) (scopes : List ScopeId) (e : Entry) (id : EntryId)
    (out : List String) : Prop extends HandedOn r r' scopes id out, Recorded r r' e id out where
  ne_empty : ∀ t ∈ out, t ≠ ""

theorem registerEntry_entered {σ : ScopeId} {tags : List String} (explicit : Bool)
    {r : Registry} (hn : (r.dynamicChain σ).Nodup) (htags : ∀ t ∈ tags, t ≠ "") :
    After True (registerEntry σ e tags explicit) r fun id r' =>
      ∃ out, Entered r r' (r.dynamicChain σ) e id out :=
  (registerEntry_carried tags explicit hn).mono fun _ _ ⟨hcarried, hrecorded⟩ => ⟨_, {
    toHandedOn := hcarried.handedOn hn
    toRecorded := hrecorded
    ne_empty := fun _ => ne_empty_of_mem_outward htags }⟩

end Registry

end Folio
