import Folio.Proofs.Numbering.IdTexts
import Folio.Proofs.Resolution.Enrolling
import Folio.Proofs.Resolution.Modest

/-!
# Labeled nodes under their ids

A labeled node without a tag is registered under nothing but its id, written out, in its scope and
all scopes around. `Resolution.Identified` is what its registration relies on: ids are given out
once, and each anchor in a scope is the written id of a labeled node of its document. So the id of
the next labeled node is no anchor yet, as long as no label type is written like an id of another
one (`Resolution.Pending.lookup_eq_none`). Then registering the node does not fail because its
anchor is taken, and leaves the next one the same to rely on (`Run.registerHeading_identified`).
-/

namespace Folio

open Resolution

namespace Registry

variable {r : Registry} {id : EntryId} {e : Entry} {t : String} {scopes : List ScopeId}

/-! ## One tag that stays -/

theorem handOn_singleton (explicit : Bool) (σ : ScopeId) : r.handOn explicit σ [t] = [t] := by
  unfold handOn
  split
  · cases explicit <;> rfl
  · rfl

/-- A node with one tag has it in all scopes, because the last tag is never extended. -/
theorem outward_singleton (explicit : Bool) : r.outward explicit scopes [t] = [t] := by
  induction scopes with
  | nil => rfl
  | cons σ rest ih => rw [outward, handOn_singleton, ih]

theorem registerUp_singleton_ends (explicit : Bool) (hn : scopes.Nodup)
    (hfree : ∀ σ ∈ scopes, ∀ sc, r.scope? σ = some sc → sc.anchors.lookup t = none) :
    Ends (¬ResolveError.TakenAnchor ·) (registerUp id e explicit scopes [t]) r fun _ _ => True := by
  induction scopes generalizing r with
  | nil => exact trivial
  | cons σ rest ih =>
    obtain ⟨hσ, hn⟩ := List.nodup_cons.1 hn
    unfold registerUp
    rw [Ends.bind_iff]
    -- the scopes further out are left as they are
    refine Ends.mono (Q := fun _ r' => ∀ τ ∈ rest, r'.scope? τ = r.scope? τ) ?_ fun _ r' h => ?_
    · unfold registerIn
      rw [Ends.bind_iff, Ends.get_iff]
      cases hsc : r.scope? σ with
      | none => exact fun _ _ => rfl
      | some sc =>
        have hlookup := hfree σ (by simp) sc hsc
        simp only [List.findSome?_cons, hlookup, Option.map_none, List.findSome?_nil]
        cases sc.ids.lookup e.id with
        | some other => exact not_false
        | none =>
          intro τ hτ
          rw [scope?_modifyScope, if_neg]
          rintro rfl
          exact hσ hτ
    · rw [Ends.bind_iff, Ends.get_iff]
      have hfree' : ∀ τ ∈ rest, ∀ sc, r'.scope? τ = some sc → sc.anchors.lookup t = none :=
        fun τ hτ sc hsc => hfree τ (by simp [hτ]) sc (h τ hτ ▸ hsc)
      change Ends _ (registerUp id e explicit rest (r'.handOn explicit σ [t])) r' _
      rw [handOn_singleton]
      exact ih hn hfree'

theorem registerAddress_modest (tag : String) (r : Registry) :
    Ends (¬ResolveError.TakenAnchor ·) (registerAddress id e tag) r fun _ r' => SameIds r r' := by
  unfold registerAddress
  rw [Ends.bind_iff, Ends.get_iff]
  dsimp only
  split
  · exact not_false
  · exact .of_scopes rfl rfl

/-- The only anchor that can be taken is the tag of the node. -/
theorem registerEntry_singleton_ends {σ : ScopeId} (explicit : Bool)
    (hn : (r.dynamicChain σ).Nodup)
    (hfree : ∀ τ ∈ r.dynamicChain σ, ∀ sc, r.scope? τ = some sc → sc.anchors.lookup t = none) :
    Ends (¬ResolveError.TakenAnchor ·) (registerEntry σ e [t] explicit) r fun _ _ => True := by
  unfold registerEntry
  rw [Ends.bind_iff, Ends.get_iff]
  dsimp only
  rw [Ends.bind_iff, Ends.set_iff, Ends.bind_iff]
  refine (registerUp_singleton_ends (r := { r with entries := r.entries.push e }) explicit hn
    hfree).mono fun tags r₁ _ => ?_
  rw [Ends.bind_iff]
  refine Ends.mono (Q := fun _ _ => True) ?_ fun _ _ _ => trivial
  exact Ends.forM (I := fun _ => True) (fun tag _ r _ =>
    (registerAddress_modest tag r).mono fun _ _ _ => trivial) trivial

/-- The scopes around a scope lie in its document. -/
theorem Synced.document_of_mem_dynamicChain (h : r.Synced) {σ τ : ScopeId} {sc outer : Scope}
    (hσ : r.scope? σ = some sc) (hτ : r.scope? τ = some outer) (hmem : τ ∈ r.dynamicChain σ) :
    outer.document = sc.document := by
  unfold dynamicChain at hmem
  generalize r.scopes.size = fuel at hmem
  induction fuel generalizing σ sc with
  | zero => simp [chain] at hmem
  | succ fuel ih =>
    unfold chain at hmem
    rw [hσ, Option.bind_some] at hmem
    rcases List.mem_cons.1 hmem with rfl | hmem
    · cases hσ.symm.trans hτ
      rfl
    · cases hp : sc.parent with
      | none =>
        rw [hp] at hmem
        cases fuel <;> simp [chain] at hmem
      | some p =>
        obtain ⟨-, next, hnext, hdoc⟩ := h.parent σ sc p hσ hp
        rw [hp] at hmem
        exact (ih hnext hmem).trans hdoc

end Registry

/-- No label type is written like an id of one of them. -/
def Unmistakable (P : String → Prop) : Prop :=
  ∀ t t', P t → P t' → ∀ path, path ≠ [] → LabelId.text ⟨t, path⟩ ≠ t'

/-- Then ids are known by their texts. -/
theorem Unmistakable.eq_of_text_eq {P : String → Prop} (hP : Unmistakable P) {id id' : LabelId}
    (ht : P id.typ) (ht' : P id'.typ) (h : id.path ≠ []) (h' : id'.path ≠ [])
    (heq : id.text = id'.text) : id = id' := by
  obtain heq | ⟨path, hpath, htyp | htyp⟩ := LabelId.eq_or_of_text_eq h h' heq
  · exact heq
  · exact (hP _ _ ht ht' path hpath htyp.symm).elim
  · exact (hP _ _ ht' ht path hpath htyp.symm).elim

namespace Resolution

/-- Ids are given out once. The labeled nodes have ids that were given out, different ones in each
document, and are known by them in the scopes of their documents. -/
structure Identified (P : String → Prop) (s : Resolution) : Prop where
  sound : s.ledger.Sound
  entry : ∀ i e, s.registry.entryAt? i = some e → P e.id.typ ∧ s.ledger.Allotted e.document e.id
  unique : ∀ i j e e', s.registry.entryAt? i = some e → s.registry.entryAt? j = some e' →
    e.document = e'.document → e.id = e'.id → i = j
  anchor : ∀ σ sc t i, s.registry.scope? σ = some sc → sc.anchors.lookup t = some i →
    ∃ e, s.registry.entryAt? i = some e ∧ e.document = sc.document ∧ t = e.id.text

/-- An id was given out in a document, and no sequence of ids begins there. -/
structure Issued (P : String → Prop) (s : Resolution) (d : String) (id : LabelId) : Prop
    extends Identified P s where
  allotted : s.ledger.Allotted d id
  unopened : ∀ g, s.ledger.document? g id.typ = some d → (s.ledger.tally g id.typ).outer ≠ id.path

/-- Besides, no labeled node has the id yet. -/
structure Pending (P : String → Prop) (s : Resolution) (d : String) (id : LabelId) : Prop
    extends Issued P s d id where
  typ : P id.typ
  free : ∀ i e, s.registry.entryAt? i = some e → e.document = d → e.id ≠ id

variable {P : String → Prop} {s s' : Resolution} {d : String} {id : LabelId} {g : FrameId}

/-! ## Steps that register no labeled node -/

theorem SameIds.entryAt? (h : s.SameIds s') (i : EntryId) :
    s'.registry.entryAt? i = s.registry.entryAt? i := by
  rw [Registry.entryAt?, Registry.entryAt?, h.registry.entries]

theorem Identified.of_sameIds (h : s.Identified P) (hs : s.SameIds s') : s'.Identified P where
  sound := hs.ledger ▸ h.sound
  entry i e he := hs.ledger ▸ h.entry i e (hs.entryAt? i ▸ he)
  unique i j e e' he he' := h.unique i j e e' (hs.entryAt? i ▸ he) (hs.entryAt? j ▸ he')
  anchor σ sc' t i hσ ht := by
    obtain hnil | ⟨sc, hsc, hanchors, hdoc⟩ := hs.registry.anchors σ sc' hσ
    · rw [hnil] at ht
      cases ht
    · obtain ⟨e, he, hd, heq⟩ := h.anchor σ sc t i hsc (hanchors ▸ ht)
      exact ⟨e, (hs.entryAt? i).trans he, hd.trans hdoc, heq⟩

theorem Issued.of_sameIds (h : s.Issued P d id) (hs : s.SameIds s') : s'.Issued P d id where
  toIdentified := h.toIdentified.of_sameIds hs
  allotted := hs.ledger ▸ h.allotted
  unopened := hs.ledger ▸ h.unopened

theorem Pending.of_sameIds (h : s.Pending P d id) (hs : s.SameIds s') : s'.Pending P d id where
  toIssued := h.toIssued.of_sameIds hs
  typ := h.typ
  free i e he := h.free i e (hs.entryAt? i ▸ he)

/-! ## The registration of a labeled node -/

/-- The next id is given out. -/
theorem Identified.next (h : s.Identified P) {typ : String} (hr : s'.registry = s.registry)
    (hl : s'.ledger = s.ledger.next g typ) : s'.Identified P where
  sound := hl ▸ h.sound.next
  entry i e he := by
    obtain ⟨ht, hallotted⟩ := h.entry i e (hr ▸ he)
    exact ⟨ht, hl ▸ Ledger.allotted_next_iff.2 (.inl hallotted)⟩
  unique := hr ▸ h.unique
  anchor := hr ▸ h.anchor

/-- It is one that no labeled node has. -/
theorem Identified.pending (h : s.Identified P) {typ : String} (hP : P typ)
    (hg : s.countedIn? g typ = some d) (hr : s'.registry = s.registry)
    (hl : s'.ledger = s.ledger.next g typ) :
    s'.Pending P d ((s.ledger.tally g typ).next.id typ) where
  toIdentified := h.next hr hl
  allotted := hl ▸ Ledger.allotted_next_iff.2 (.inr ⟨hg, rfl⟩)
  unopened g' hg' := by
    rw [hl] at hg' ⊢
    rw [Ledger.outer_next]
    exact h.sound.outer_ne_next hg hg'
  typ := hP
  free i e he hd heq := by
    obtain ⟨-, hallotted⟩ := h.entry i e (hr ▸ he)
    rw [hd, heq] at hallotted
    exact h.sound.not_allotted_next hg hallotted

/-- Its text is no anchor yet. -/
theorem Pending.lookup_eq_none (h : s.Pending P d id) (hP : Unmistakable P) {σ : ScopeId}
    {sc : Scope} (hσ : s.registry.scope? σ = some sc) (hd : sc.document = d) :
    sc.anchors.lookup id.text = none := by
  cases hi : sc.anchors.lookup id.text with
  | none => rfl
  | some i =>
    obtain ⟨e, he, hed, heq⟩ := h.anchor σ sc _ i hσ hi
    obtain ⟨ht, hallotted⟩ := h.entry i e he
    exact (h.free i e he (hed.trans hd) (hP.eq_of_text_eq ht h.typ hallotted.path_ne_nil
      h.allotted.path_ne_nil heq.symm)).elim

/-- A labeled node is registered under the id in the scopes around. -/
theorem Pending.enter (h : s.Pending P d id) {r : Registry} {σ : ScopeId} {i : EntryId}
    {e : Entry} (hs : s.registry.Synced) {sc : Scope} (hσ : s.registry.scope? σ = some sc)
    (hd : sc.document = d) (hed : e.document = d) (heid : e.id = id)
    (hc : Registry.Carried s.registry r false (s.registry.dynamicChain σ) i [id.text])
    (hr : Registry.Recorded s.registry r e i [id.text]) :
    Issued P { s with registry := r } d id := by
  have hledger : ledger { s with registry := r } = s.ledger := ledger_congr rfl
  refine { allotted := hledger ▸ h.allotted, unopened := hledger ▸ h.unopened
           sound := hledger ▸ h.sound, entry := fun j f hj => ?_
           unique := fun j k f f' hj hk hdoc hid => ?_
           anchor := fun τ sc' t j hτ ht => ?_ }
  · rw [hledger]
    rw [hr.entry] at hj
    split at hj
    · cases hj
      exact ⟨heid ▸ h.typ, by rw [hed, heid]; exact h.allotted⟩
    · exact h.entry j f hj
  · rw [hr.entry] at hj hk
    split at hj <;> split at hk
    next hji hki => rw [hji, hki]
    · cases hj
      exact (h.free k f' hk (hdoc ▸ hed) (hid ▸ heid)).elim
    · cases hk
      exact (h.free j f hj (hdoc.trans hed) (hid.trans heid)).elim
    · exact h.unique j k f f' hj hk hdoc hid
  · -- a scope of the chain knows the new node besides
    have hold : ∀ sc₀, s.registry.scope? τ = some sc₀ → sc₀.anchors.lookup t = some j →
        sc₀.document = sc'.document →
        ∃ f, r.entryAt? j = some f ∧ f.document = sc'.document ∧ t = f.id.text := by
      intro sc₀ hsc₀ hlookup hdoc
      obtain ⟨f, hf, hfd, hft⟩ := h.anchor τ sc₀ t j hsc₀ hlookup
      refine ⟨f, ?_, hfd.trans hdoc, hft⟩
      rw [hr.entry, if_neg, hf]
      rintro rfl
      cases hr.fresh_id.symm.trans hf
    by_cases hmem : τ ∈ s.registry.dynamicChain σ ∧ (s.registry.scope? τ).isSome
    · obtain ⟨hmem, hsome⟩ := hmem
      obtain ⟨sc₀, hsc₀⟩ := Option.isSome_iff_exists.1 hsome
      obtain ⟨inner, outer, hsplit⟩ := List.append_of_mem hmem
      obtain ⟨sc'', hsc'', hplace, hanchors, -⟩ := hc.scope inner τ outer hsplit sc₀ hsc₀
      cases hτ.symm.trans hsc''
      have hdoc : sc₀.document = sc'.document := (Scope.document_eq_of_place hplace).symm
      rw [hanchors, Registry.outward_singleton, List.map_singleton, List.singleton_append,
        Table.lookup_cons] at ht
      split at ht
      next heq =>
        cases ht
        refine ⟨{ e with anchors := [id.text] }, (hr.entry i).trans (if_pos rfl), ?_, ?_⟩
        · exact hed.trans (hd.symm.trans
            ((hs.document_of_mem_dynamicChain hσ hsc₀ hmem).symm.trans hdoc))
        · exact heq.trans (congrArg LabelId.text heid.symm)
      · exact hold sc₀ hsc₀ ht hdoc
    · have hoff := hc.off τ fun hin => by
        cases hsc : s.registry.scope? τ with
        | none => rfl
        | some sc₀ => exact (hmem ⟨hin, by rw [hsc]; rfl⟩).elim
      exact hold sc' (hoff ▸ hτ) ht rfl

/-- A frame is opened inside the labeled node. -/
theorem Issued.push (h : s.Issued P d id) {frame : Frame} (hd : frame.document = d)
    (hk : frame.kind = .subRange id.typ (.below id) none) :
    Identified P { s with frames := s.frames.push frame } := by
  have hledger := ledger_push_subRange (s := s) hk
  rw [hd] at hledger
  have hfresh : ∀ t, s.ledger.document? s.freshFrame t = none := fun t => countedIn?_freshFrame t
  refine ⟨hledger ▸ h.sound.enter hfresh h.allotted h.unopened, fun i e he => ?_, h.unique,
    h.anchor⟩
  obtain ⟨ht, hallotted⟩ := h.entry i e he
  exact ⟨ht, hledger ▸ (Ledger.allotted_enter_iff hfresh).2 hallotted⟩

end Resolution

namespace Run

variable {P : String → Prop} {K : Stock} {s : Resolution} {f : FrameId}

theorem nextId_ends {R : ResolveError → Prop} (f : FrameId) (typ : String) :
    Ends R (nextId f typ) s fun _ s' => s'.registry = s.registry := by
  unfold nextId
  rw [Ends.bind_iff, Ends.get_iff]
  dsimp only
  split <;> exact rfl

/-- A labeled node is registered under its id, and a frame is opened inside of it. -/
theorem registerUnder_identified (hP : Unmistakable P) (hs : s.Founded K) (hf : s.Housed f)
    {label : LabelId} (hp : s.Pending P (s.documentOf f) label) (h : Heading) :
    Ends (¬ResolveError.TakenAnchor ·) (registerUnder f h label ([], false)) s
      fun _ s' => s'.Identified P := by
  obtain ⟨frame, -, hframe, -⟩ := id hf
  unfold registerUnder
  rw [Ends.bind_iff]
  refine ((requestRange_modest f label.typ s).inspect
    (requestRange_enrolling (K := K) label.typ s hs hf)).mono fun _ s₁ ⟨hen, h₁⟩ => ?_
  rw [Ends.bind_iff, Ends.get_iff]
  dsimp only
  rw [List.nil_append, documentOf_of_alike hen.frame hframe, Ends.bind_iff, registry_ends]
  have hp₁ := hp.of_sameIds h₁
  have hsync := (hen.founded hs).synced
  obtain ⟨frame₁, sc, hframe₁, hsc, hdoc⟩ := hen.housed hs hf
  rw [scopeOf_eq hframe₁]
  have hd : sc.document = s.documentOf f := by
    rw [hdoc, ← documentOf_eq hframe₁, documentOf_of_alike hen.frame hframe]
  obtain ⟨τ, hleads⟩ := hsync.leadsUp hsc
  refine ((Registry.registerEntry_singleton_ends false hleads.nodup fun ρ hρ outer houter => ?_)
    |>.inspect (Registry.registerEntry_carried [label.text] false hleads.nodup)).mono
    fun entry r ⟨⟨hc, hr⟩, _⟩ => ?_
  · exact hp₁.lookup_eq_none hP houter ((hsync.document_of_mem_dynamicChain hsc houter hρ).trans hd)
  rw [Registry.outward_singleton] at hr
  have h₂ := hp₁.enter hsync hsc hd rfl rfl hc hr
  rw [Ends.bind_iff]
  refine ((registerText_modest f h.title _).inspect (registerText_calmly f h.title _)).mono
    fun _ s₃ ⟨hcalm, h₃⟩ => ?_
  have hdoc₃ : s₃.documentOf f = s.documentOf f := by
    rw [documentOf_eq (hcalm.frame f frame₁ hframe₁), ← documentOf_eq hframe₁,
      documentOf_of_alike hen.frame hframe]
  unfold subRangeFrame
  rw [bind_assoc, Ends.bind_iff, Ends.get_iff]
  exact ((h₂.of_sameIds h₃).push hdoc₃ rfl).of_sameIds (.of_eq rfl rfl)

/-- A labeled node without a tag is registered under an id that is new. -/
theorem registerHeading_identified (hP : Unmistakable P) (hs : s.Founded K) (hf : s.Housed f)
    (ha : s.Accounted f) (hi : s.Identified P) {h : Heading} (htag : h.tag = none)
    (ht : P (h.typeIn s.options)) :
    Ends (¬ResolveError.TakenAnchor ·) (registerHeading f h) s fun _ s' => s'.Identified P := by
  obtain ⟨frame, -, hframe, -⟩ := id hf
  obtain ⟨g, hg, hcounted⟩ := ha (h.typeIn s.options)
  have hnone : headingTags f h = pure ([], false) := by rw [headingTags, htag]
  rw [registerHeading_eq, Ends.bind_iff, Ends.get_iff]
  dsimp only
  rw [Ends.bind_iff]
  refine ((nextId_ends f _).inspect ((nextId_ledger hg).and
    (nextId_enrolling (K := K) _ s hs hf))).mono fun ids s₁ ⟨⟨⟨hids, hl⟩, hen⟩, hr⟩ => ?_
  rw [hnone, pure_bind, hids]
  refine registerUnder_identified hP (hen.founded hs) (hen.housed hs hf) ?_ h
  rw [documentOf_of_alike hen.frame hframe]
  exact hi.pending ht hcounted hr hl

/-- The ids of embeddings are left out. -/
theorem registerEmbedding_identified (ha : s.Accounted f) (hi : s.Identified P) (key : NodeKey)
    (location : Location) (text : String) :
    Ends (¬ResolveError.TakenAnchor ·) (registerEmbedding f key location text) s
      fun _ s' => s'.Identified P := by
  obtain ⟨g, hg, hcounted⟩ := ha s.options.sectionType
  unfold registerEmbedding
  rw [Ends.bind_iff, Ends.get_iff]
  dsimp only
  rw [Ends.bind_iff]
  refine ((nextId_ends f _).inspect (nextId_ledger hg)).mono fun _ s₁ ⟨⟨_, hl⟩, hr⟩ => ?_
  have hrest : Modest (do
      requestRange f s.options.sectionType
      let link ← readEmbedding f location text
      requestDocument f link location
      setState f key (.embedding link)) :=
    (requestRange_modest f _).bind fun _ =>
    (Modest.reading.readEmbedding f location text).bind fun link =>
      (requestDocument_modest f link location).bind fun _ => setState_modest f key _
  exact (hrest s₁).mono fun _ _ h => (hi.next hr hl).of_sameIds h

end Run

end Folio
