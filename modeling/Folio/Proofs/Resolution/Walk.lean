import Folio.Proofs.Resolution.Quiet

/-!
# Walks through expanded documents

Every phase goes through the nodes of a document in the same way: labeled nodes are entered, and
so are expansions, whose nodes are those of a block. `Walk` is the list of what such a walk comes
to, with the frames and entries that registration has chosen. Walks depend on what never changes
again (`Resolution.Keeps`), so the walk that registration leaves is the one that all later phases
take (`Walk.keeps`).

Registration is what makes walks. `registerNodes_spec` says that every node it handles becomes
part of one, and that the labeled nodes on it are the new entries in their order.
-/

namespace Folio

open Resolution

/-- What a walk comes to, and in which frame. -/
inductive Visit where
  | text (f : FrameId) (content : InlineText)
  | heading (f : FrameId) (h : Heading) (entry : EntryId) (inner : FrameId)
  | embedding (f : FrameId) (key : NodeKey) (location : Location) (link : Link)
  | expansion (f : FrameId) (key : NodeKey) (location : Location) (inner : FrameId)
  | term (f : FrameId) (key : NodeKey) (location : Location) (content : InlineText)

namespace Visit

/-- The entry of a labeled node. -/
def entry? : Visit → Option EntryId
  | heading _ _ entry _ => some entry
  | _ => none

/-- The labeled node. -/
def heading? : Visit → Option Heading
  | heading _ h _ _ => some h
  | _ => none

/-- The request that an embedding makes. -/
def request? : Visit → Option EmbeddingRequest
  | embedding _ _ location link => some { link, location }
  | _ => none

/-- The frame that a visit takes place in. -/
def frame : Visit → FrameId
  | text f _ => f
  | heading f _ _ _ => f
  | embedding f _ _ _ => f
  | expansion f _ _ _ => f
  | term f _ _ _ => f

end Visit

namespace Resolution

/-- What never changes once it is there. -/
structure Keeps (s s' : Resolution) : Prop where
  options : s'.options = s.options
  frame : ∀ f frame, s.frame? f = some frame → ∃ frame', s'.frame? f = some frame' ∧
    frame.Alike frame'
  entry : ∀ e entry, s.registry.entryAt? e = some entry → ∃ entry',
    s'.registry.entryAt? e = some entry' ∧ entry'.document = entry.document ∧ entry'.id = entry.id
  fixed : ∀ scope key state, s.fixed? scope key = some state → s'.fixed? scope key = some state

theorem Keeps.refl (s : Resolution) : s.Keeps s where
  options := rfl
  frame _ frame h := ⟨frame, h, .refl frame⟩
  entry _ entry h := ⟨entry, h, rfl, rfl⟩
  fixed _ _ _ h := h

theorem Keeps.trans {s s' s'' : Resolution} (h : s.Keeps s') (h' : s'.Keeps s'') : s.Keeps s'' where
  options := h'.options.trans h.options
  frame f frame hf := by
    obtain ⟨frame', hf', ha⟩ := h.frame f frame hf
    obtain ⟨frame'', hf'', ha'⟩ := h'.frame f frame' hf'
    exact ⟨frame'', hf'', ha.trans ha'⟩
  entry e entry he := by
    obtain ⟨entry', he', hd, hi⟩ := h.entry e entry he
    obtain ⟨entry'', he'', hd', hi'⟩ := h'.entry e entry' he'
    exact ⟨entry'', he'', hd'.trans hd, hi'.trans hi⟩
  fixed scope key state hs := h'.fixed scope key state (h.fixed scope key state hs)

theorem Keeps.documentOf_eq {s s' : Resolution} (h : s.Keeps s') {f : FrameId} {frame : Frame}
    (hf : s.frame? f = some frame) : s'.documentOf f = s.documentOf f :=
  documentOf_of_alike h.frame hf

theorem Grows.keeps {s s' : Resolution} (h : s.Grows s') : s.Keeps s' where
  options := h.options
  frame := h.frame
  entry e entry he := by
    obtain ⟨anchors, he'⟩ := h.entry e entry he
    exact ⟨_, he', rfl, rfl⟩
  fixed := h.fixed

/-- The frame at `inner` lies directly in the one at `f` and works on the same document. -/
def Inside (s : Resolution) (f inner : FrameId) (sort : FrameKind → Prop) : Prop :=
  ∃ outer frame, s.frame? f = some outer ∧ s.frame? inner = some frame ∧ frame.parent = some f ∧
    frame.document = outer.document ∧ sort frame.kind

/-- The frame inside a labeled node of a type. -/
def IsSubRange (typ : String) : FrameKind → Prop
  | .subRange t _ _ => t = typ
  | _ => False

/-- The frame of an expansion. -/
def IsBlock : FrameKind → Prop
  | .block _ => True
  | _ => False

theorem IsSubRange.alike {typ : String} {k k' : FrameKind} (h : IsSubRange typ k)
    (hk : k.Alike k') : IsSubRange typ k' := by
  cases k <;> cases k' <;> simp_all [IsSubRange, FrameKind.Alike]

theorem IsBlock.alike {k k' : FrameKind} (h : IsBlock k) (hk : k.Alike k') : IsBlock k' := by
  cases k <;> cases k' <;> simp_all [IsBlock, FrameKind.Alike]

theorem Inside.keeps {s s' : Resolution} {f inner : FrameId} {sort : FrameKind → Prop}
    (h : s.Inside f inner sort) (hs : s.Keeps s')
    (hsort : ∀ k k', sort k → FrameKind.Alike k k' → sort k') : s'.Inside f inner sort := by
  obtain ⟨outer, frame, ho, hi, hp, hd, hk⟩ := h
  obtain ⟨outer', ho', ha⟩ := hs.frame f outer ho
  obtain ⟨frame', hi', ha'⟩ := hs.frame inner frame hi
  exact ⟨outer', frame', ho', hi', ha'.1.trans hp, ha'.2.1.trans (hd.trans ha.2.1.symm),
    hsort _ _ hk ha'.2.2.2⟩

theorem Inside.documentOf {s : Resolution} {f inner : FrameId} {sort : FrameKind → Prop}
    (h : s.Inside f inner sort) : s.documentOf inner = s.documentOf f := by
  obtain ⟨outer, frame, ho, hi, -, hd, -⟩ := h
  rw [documentOf_eq ho, documentOf_eq hi, hd]

/-- A node in a frame has a fixed state. -/
def Holds (s : Resolution) (f : FrameId) (key : NodeKey) (state : NodeState) : Prop :=
  ∃ frame, s.frame? f = some frame ∧ s.fixed? frame.scope key = some state

theorem Holds.keeps {s s' : Resolution} {f : FrameId} {key : NodeKey} {state : NodeState}
    (h : s.Holds f key state) (hs : s.Keeps s') : s'.Holds f key state := by
  obtain ⟨frame, hf, hst⟩ := h
  obtain ⟨frame', hf', ha⟩ := hs.frame f frame hf
  exact ⟨frame', hf', ha.2.2.1 ▸ hs.fixed _ _ _ hst⟩

theorem Holds.state? {s : Resolution} {f : FrameId} {key : NodeKey} {state : NodeState}
    (h : s.Holds f key state) : s.state? f key = some state := by
  obtain ⟨frame, hf, hst⟩ := h
  rw [Resolution.state?, scopeOf_eq hf]
  exact (stateIn?_of_fixed? hst).1

/-- An entry was registered for a node of a type in a document. -/
def Registered (s : Resolution) (e : EntryId) (document typ : String) : Prop :=
  ∃ entry, s.registry.entryAt? e = some entry ∧ entry.document = document ∧ entry.id.typ = typ

theorem Registered.keeps {s s' : Resolution} {e : EntryId} {document typ : String}
    (h : s.Registered e document typ) (hs : s.Keeps s') : s'.Registered e document typ := by
  obtain ⟨entry, he, hd, ht⟩ := h
  obtain ⟨entry', he', hd', hi⟩ := hs.entry e entry he
  exact ⟨entry', he', hd'.trans hd, by rw [hi, ht]⟩

end Resolution

/-- What is written in a document leads to a link. -/
def Link.Reads (link : Link) (document written : String) : Prop :=
  ∃ l, Link.read? false written = .ok l ∧ l.abs? document false = .ok link

/-- The walk through nodes in a frame. -/
inductive Walk (s : Resolution) : FrameId → List Node → List Visit → Prop
  | nil (f : FrameId) : Walk s f [] []
  | text (f : FrameId) (content : InlineText) {rest : List Node} {vs : List Visit}
    (hr : Walk s f rest vs) : Walk s f (.text content :: rest) (.text f content :: vs)
  | labeled (f : FrameId) (h : Heading) {body rest : List Node} {entry : EntryId}
    {inner : FrameId} {ws vs : List Visit} (hs : s.Holds f h.key (.labeled entry inner))
    (hi : s.Inside f inner (IsSubRange (h.typeIn s.options)))
    (he : s.Registered entry (s.documentOf f) (h.typeIn s.options))
    (hb : Walk s inner body ws) (hr : Walk s f rest vs) :
    Walk s f (.labeled h body :: rest) (.heading f h entry inner :: (ws ++ vs))
  | embedding (f : FrameId) (key : NodeKey) (location : Location) (written : String) {link : Link}
    {rest : List Node} {vs : List Visit} (hs : s.Holds f key (.embedding link))
    (hl : link.Reads (s.documentOf f) written) (hr : Walk s f rest vs) :
    Walk s f (.embedding key location written :: rest) (.embedding f key location link :: vs)
  | expansion (f : FrameId) (key : NodeKey) (location : Location) (block : String)
    (tag : Option String) (arguments : Table InlineText) {inner : FrameId} {body rest : List Node}
    {ws vs : List Visit} (hs : s.Holds f key (.expansion inner body))
    (hi : s.Inside f inner IsBlock) (hb : Walk s inner body ws) (hr : Walk s f rest vs) :
    Walk s f (.expansion key location block tag arguments :: rest)
      (.expansion f key location inner :: (ws ++ vs))
  | term (f : FrameId) (key : NodeKey) (location : Location) (tag : String) (content : InlineText)
    {rest : List Node} {vs : List Visit} (hr : Walk s f rest vs) :
    Walk s f (.term key location tag content :: rest) (.term f key location content :: vs)

namespace Walk

variable {s s' : Resolution} {f : FrameId} {n : Node} {ns : List Node} {vs ws : List Visit}

theorem keeps (h : Walk s f ns vs) (hs : s.Keeps s') : Walk s' f ns vs := by
  induction h with
  | nil f => exact .nil f
  | text f content _ ih => exact .text f content ih
  | labeled f h hst hi he _ _ ihb ihr =>
    rw [← hs.options] at hi he
    obtain ⟨outer, -, ho, -⟩ := id hi
    exact .labeled f h (hst.keeps hs) (hi.keeps hs fun _ _ => IsSubRange.alike)
      (hs.documentOf_eq ho ▸ he.keeps hs) ihb ihr
  | embedding f key location written hst hl _ ih =>
    obtain ⟨frame, hf, -⟩ := id hst
    exact .embedding f key location written (hst.keeps hs) (hs.documentOf_eq hf ▸ hl) ih
  | expansion f key location block tag arguments hst hi _ _ ihb ihr =>
    exact .expansion f key location block tag arguments (hst.keeps hs)
      (hi.keeps hs fun _ _ => IsBlock.alike) ihb ihr
  | term f key location tag content _ ih => exact .term f key location tag content ih

theorem cons (h : Walk s f [n] vs) (h' : Walk s f ns ws) : Walk s f (n :: ns) (vs ++ ws) := by
  cases h with
  | text _ content hr =>
    cases hr
    exact .text f content h'
  | labeled _ h hst hi he hb hr =>
    cases hr
    rw [List.append_nil]
    exact .labeled f h hst hi he hb h'
  | embedding _ key location written hst hl hr =>
    cases hr
    exact .embedding f key location written hst hl h'
  | expansion _ key location block tag arguments hst hi hb hr =>
    cases hr
    rw [List.append_nil]
    exact .expansion f key location block tag arguments hst hi hb h'
  | term _ key location tag content hr =>
    cases hr
    exact .term f key location tag content h'

end Walk

/-! ## Registration makes walks -/

/-- A new entry at the end of a registry. -/
structure Registry.Added (K : Stock) (r r' : Registry) (e : Entry) (id : EntryId) :
    Prop where
  id_eq : id = ⟨r.entries.size⟩
  size : r'.entries.size = r.entries.size + 1
  scopes : r.scopes.size ≤ r'.scopes.size
  old : ∀ i entry, r.entryAt? i = some entry → r'.entryAt? i = some entry
  entry : ∀ i entry, r'.entryAt? i = some entry →
    r.entryAt? i = some entry ∨ ∃ anchors, entry = { e with anchors }
  new : ∃ anchors, r'.entryAt? id = some { e with anchors }
  value : ∀ v binding, r'.value? v = some binding → r.value? v = some binding ∨ binding.body.Fits K
  block : ∀ b entry, r'.block? b = some entry → r.block? b = some entry ∨ entry.block.Fits K
  place : ∀ path anchor address, r'.address? (.place path anchor) = some address →
    r.address? (.place path anchor) = some address ∨ address.document = path

namespace Registry

variable {K : Stock}

theorem forM_quietly {α : Type} {f : α → Registry.Step PUnit} (xs : List α)
    (hf : ∀ x ∈ xs, Registry.Quietly K (f x)) : Registry.Quietly K (xs.forM f) := by
  induction xs with
  | nil => exact .pure _
  | cons x xs ih =>
    change Registry.Quietly K (f x >>= fun _ => xs.forM f)
    exact (hf x (by simp)).bind fun _ => ih fun y hy => hf y (by simp [hy])

theorem registerEntry_spec (scope : ScopeId) (e : Entry) (tags : List String) (explicit : Bool)
    (r : Registry) : After True (registerEntry scope e tags explicit) r fun id r' =>
      r.Added K r' e id := by
  unfold registerEntry
  rw [After.bind_iff, After.get_iff]
  dsimp only
  rw [After.bind_iff, After.set_iff, After.bind_iff]
  refine (registerUp_quietly (K := K) _ e explicit _ tags _).mono fun tags r₁ h₁ => ?_
  rw [After.bind_iff]
  refine (forM_quietly (K := K) tags (fun tag _ => registerAddress_quietly _ e tag) r₁).mono
    fun _ r₂ h₂ => ?_
  rw [After.bind_iff, After.modify_iff, After.bind_iff, After.modify_iff, After.pure_iff]
  have h₃ : Registry.Quiet K r₂ (if e.id.typ = r₂.rootType ∧ (r₂.root? e.document).isNone then
      { r₂ with index.roots := (e.document, ⟨r.entries.size⟩) :: r₂.index.roots } else r₂) := by
    split
    · exact .modifyIndex r₂ rfl
    · exact .refl r₂
  have h := (h₁.trans h₂).trans h₃
  have hentries := h.entries
  generalize (if e.id.typ = r₂.rootType ∧ (r₂.root? e.document).isNone then
      { r₂ with index.roots := (e.document, ⟨r.entries.size⟩) :: r₂.index.roots } else r₂) = r₃
    at h hentries ⊢
  have hsize : r₃.entries.size = r.entries.size + 1 := by
    rw [hentries, Array.size_push]
  refine ⟨rfl, ?_, h.scopes, fun i entry hi => ?_, fun i entry hi => ?_, ⟨tags, ?_⟩, h.value,
    h.block, h.place⟩
  · simp [Registry.modifyEntry, hsize]
  · have hlt : i.index < r.entries.size := (Array.getElem?_eq_some_iff.1 hi).1
    simp only [Registry.entryAt?, Registry.modifyEntry, Array.getElem?_modify, hentries,
      Array.getElem?_push]
    rw [if_neg (Nat.ne_of_gt hlt), if_neg (Nat.ne_of_lt hlt)]
    exact hi
  · simp only [Registry.entryAt?, Registry.modifyEntry, Array.getElem?_modify, hentries,
      Array.getElem?_push] at hi
    by_cases hindex : i.index = r.entries.size
    · rw [if_pos hindex.symm, if_pos hindex] at hi
      cases hi
      exact .inr ⟨_, rfl⟩
    · rw [if_neg (Ne.symm hindex), if_neg hindex] at hi
      exact .inl hi
  · simp only [Registry.entryAt?, Registry.modifyEntry, Array.getElem?_modify, hentries,
      Array.getElem?_push]
    simp

end Registry

namespace Resolution

/-- Nodes of a document with the keys `us` in a scope were registered, in the order of the visits
`vs`, which come to labeled nodes that were written. -/
structure Registers (K : Stock) (scope : ScopeId) (document : String) (us : List Use)
    (vs : List Visit) (s s' : Resolution) : Prop extends s.Grows s' where
  fine : Fine K s'
  written : ∀ h ∈ vs.filterMap Visit.heading?, K.heading h
  touched : ∀ τ k, τ.index < s.registry.scopes.size → s'.fixed? τ k ≠ s.fixed? τ k →
    τ = scope ∧ .node k ∈ us
  size : s'.registry.entries.size = s.registry.entries.size + (vs.filterMap Visit.entry?).length
  entries : (vs.filterMap Visit.entry?).map EntryId.index =
    List.range' s.registry.entries.size (vs.filterMap Visit.entry?).length
  requests : ∀ d info, s.info? d = some info → ∃ ranges, s'.info? d = some { info with
    ranges, requests := info.requests ++ if d = document then vs.filterMap Visit.request? else [] }

/-- No node with one of the keys has a fixed state in the scope. -/
def Free (s : Resolution) (scope : ScopeId) (us : List Use) : Prop :=
  ∀ k, .node k ∈ us → s.fixed? scope k = none

namespace Registers

variable {K : Stock} {s s' s'' : Resolution} {scope : ScopeId} {document : String}
  {us us' : List Use} {vs vs' : List Visit}

theorem of_quiet (h : Quiet K s s') (scope : ScopeId) (document : String) (us : List Use) :
    Registers K scope document us [] s s' :=
  { h.toGrows with
    fine := h.fine
    written := by simp
    touched := fun τ k _ hne => (hne (h.fixed_eq τ k)).elim
    size := by rw [h.entries]; rfl
    entries := rfl
    requests := fun d info hd => by simpa using h.info_eq d info hd }

theorem mono (h : Registers K scope document us vs s s') (hu : ∀ k, .node k ∈ us → .node k ∈ us') :
    Registers K scope document us' vs s s' :=
  { h with touched := fun τ k hτ hne => (h.touched τ k hτ hne).imp_right (hu k) }

/-- Visits of other things than labeled nodes do not count. -/
theorem of_visits (h : Registers K scope document us vs s s')
    (hv : vs'.filterMap Visit.entry? = vs.filterMap Visit.entry?)
    (hh : vs'.filterMap Visit.heading? = vs.filterMap Visit.heading?)
    (hr : vs'.filterMap Visit.request? = vs.filterMap Visit.request?) :
    Registers K scope document us vs' s s' :=
  { h with
    written := by rw [hh]; exact h.written
    size := by rw [hv, h.size]
    entries := by rw [hv, h.entries]
    requests := by rw [hr]; exact h.requests }

/-- Registration goes on, perhaps in another scope. -/
theorem append {scope' : ScopeId} {all : List Use} (h : Registers K scope document us vs s s')
    (h' : Registers K scope' document us' vs' s' s'') (hall : ∀ k, .node k ∈ us → .node k ∈ all)
    (hall' : ∀ k, scope'.index < s.registry.scopes.size → .node k ∈ us' →
      scope' = scope ∧ .node k ∈ all) : Registers K scope document all (vs ++ vs') s s'' :=
  { h.toGrows.trans h'.toGrows with
    fine := h'.fine
    written := fun heading hm => by
      rw [List.filterMap_append] at hm
      exact (List.mem_append.1 hm).elim (h.written heading) (h'.written heading)
    touched := fun τ k hτ hne => by
      by_cases heq : s'.fixed? τ k = s.fixed? τ k
      · obtain ⟨rfl, hk⟩ := h'.touched τ k (Nat.lt_of_lt_of_le hτ h.scopes) (heq ▸ hne)
        exact hall' k hτ hk
      · exact (h.touched τ k hτ heq).imp_right (hall k)
    size := by rw [h'.size, h.size, List.filterMap_append, List.length_append]; omega
    entries := by
      rw [List.filterMap_append, List.map_append, h.entries, h'.entries, h.size, List.length_append,
        ← List.range'_append, Nat.one_mul]
    requests := fun d info hd => by
      obtain ⟨ranges, hd'⟩ := h.requests d info hd
      obtain ⟨ranges', hd''⟩ := h'.requests d _ hd'
      refine ⟨ranges', hd''.trans ?_⟩
      by_cases hdoc : d = document <;> simp [hdoc] }

/-- Registration goes on in the same scope. -/
theorem trans (h : Registers K scope document us vs s s') (h' : Registers K scope document us' vs' s' s'') :
    Registers K scope document (us ++ us') (vs ++ vs') s s'' :=
  h.append h' (fun _ => List.mem_append_left us') fun _ _ hk => ⟨rfl, List.mem_append_right us hk⟩

/-- Registration goes on in a scope that is new. -/
theorem enter {scope' : ScopeId} (h : Registers K scope document us vs s s')
    (h' : Registers K scope' document us' vs' s' s'') (hnew : s.registry.scopes.size ≤ scope'.index) :
    Registers K scope document us (vs ++ vs') s s'' :=
  h.append h' (fun _ hk => hk) fun _ hlt => absurd hlt (Nat.not_lt.2 hnew)

/-- An entry was added for a labeled node. -/
theorem of_added (hs : Fine K s) {r : Registry} {e : Entry} {id : EntryId}
    (hr : s.registry.Added K r e id) (he : e.slot = none) (scope : ScopeId) (document : String)
    (us : List Use) (f : FrameId) {h : Heading} (hw : K.heading h) (inner : FrameId) :
    Registers K scope document us [.heading f h id inner] s { s with registry := r } :=
  { Grows.refl s with
    scopes := hr.scopes
    entry := fun i entry hi => ⟨entry.anchors, hr.old i entry hi⟩
    fine := by
      refine hs.registry hr.scopes (fun i entry hi => ?_) hr.value hr.block hr.place
      rcases hr.entry i entry hi with hi | ⟨anchors, rfl⟩
      · exact .inl hi
      · exact .inr he
    written := by simpa [Visit.heading?] using hw
    touched := fun _ _ _ hne => (hne rfl).elim
    size := hr.size
    entries := by simp [Visit.entry?, hr.id_eq]
    requests := fun d info hd => ⟨info.ranges, by
      change s.info? d = _
      rw [hd, show [Visit.heading f h id inner].filterMap Visit.request? = [] from rfl, ite_self,
        List.append_nil]⟩ }

/-- Keys that are not used twice stay free. -/
theorem free (h : Registers K scope document us vs s s') (hlt : scope.index < s.registry.scopes.size)
    (hf : s.Free scope us') (hd : ∀ k, .node k ∈ us → .node k ∉ us') : s'.Free scope us' := by
  intro k hk
  by_cases heq : s'.fixed? scope k = s.fixed? scope k
  · rw [heq, hf k hk]
  · exact (hd k (h.touched scope k hlt heq).2 hk).elim

/-- Nodes stay free while the one before them is registered. -/
theorem free_rest {n : Node} {rest : List Node} (h : Registers K scope document n.uses vs s s')
    (hlt : scope.index < s.registry.scopes.size) (hn : Node.Fits K (n :: rest))
    (hf : s.Free scope (Node.usesAll (n :: rest))) : s'.Free scope (Node.usesAll rest) := by
  refine h.free hlt (fun k hk => hf k (List.mem_append_right _ hk)) fun k hk hk' => ?_
  exact (List.nodup_append.1 hn.fit.nodup).2.2 _ hk _ hk' rfl

/-- Nothing is registered in a scope that was just opened. -/
theorem free_opened {s₁ : Resolution} (h : Registers K scope document us vs s₁ s')
    (hs : Fine K s) (hq : Quiet K s s₁) (hlt : scope.index < s.registry.scopes.size)
    {τ : ScopeId} (hnew : s.registry.scopes.size ≤ τ.index)
    (hτ : τ.index < s₁.registry.scopes.size) (us' : List Use) : s'.Free τ us' := by
  intro k _
  have hold : s'.fixed? τ k = s.fixed? τ k := by
    refine Classical.byContradiction fun hne => ?_
    have heq := (h.touched τ k hτ (hq.fixed_eq _ _ ▸ hne)).1
    rw [heq] at hnew
    omega
  cases hst : s'.fixed? τ k with
  | none => rfl
  | some st =>
    have := (hs.fixed_mem _ _ st (hold ▸ hst)).2
    omega

end Registers

end Resolution

namespace Run

variable {K : Stock}

theorem nextId_quietly (f : FrameId) (typ : String) : Quietly K (nextId f typ) fun _ => True := by
  refine .get_bind fun s hs => ?_
  dsimp only
  split
  next owner ids parent document scope h =>
    rw [After.bind_iff, After.set_iff]
    refine ⟨.modifyKind hs _ _ fun frame hf _ => ?_, trivial⟩
    cases (countingFrame?_eq_some h).1.symm.trans hf
    exact ⟨trivial, trivial⟩
  next owner t ids range parent document scope h =>
    rw [After.bind_iff, After.set_iff]
    refine ⟨.modifyKind hs _ _ fun frame hf hb => ?_, trivial⟩
    cases (countingFrame?_eq_some h).1.symm.trans hf
    exact ⟨rfl, hb⟩
  · exact ⟨.refl hs, trivial⟩

theorem requestRange_quietly (f : FrameId) (typ : String) :
    Quietly K (requestRange f typ) fun _ => True := by
  refine fun s hs => ⟨.modifyInfo hs _ _ fun info => ?_, trivial⟩
  split
  · exact ⟨info.ranges, rfl⟩
  · exact ⟨_, rfl⟩

theorem requestDocument_spec {s : Resolution} (hs : Fine K s) {f : FrameId} {frame : Frame}
    (hf : s.frame? f = some frame) (key : NodeKey) (location : Location) (link : Link) :
    After True (requestDocument f link location) s fun _ s' =>
      Registers K frame.scope frame.document [] [.embedding f key location link] s s' := by
  have hq := (Registers.of_quiet (.refl hs) frame.scope frame.document [])
  unfold requestDocument
  rw [After.bind_iff, After.get_iff, documentOf_eq hf]
  cases hdoc : s.info? frame.document with
  | none =>
    refine { hq with requests := fun d info hd => ⟨info.ranges, hd.trans ?_⟩ }
    rw [if_neg (by rintro rfl; simp [hdoc] at hd), List.append_nil]
  | some info =>
    dsimp only
    split
    · exact trivial
    · have hinfo : ∀ d info, s.info? d = some info → (s.modifyInfo frame.document fun info =>
          { info with requests := info.requests ++ [{ link, location }] }).info? d =
            some { info with requests := info.requests ++ if d = frame.document then
              [Visit.embedding f key location link].filterMap Visit.request? else [] } := by
        intro d info hd
        rw [info?_modifyInfo, hd]
        split <;> simp [Visit.request?]
      exact { hq with
        keys := keys_modifyInfo ..
        info := fun d info hd => ⟨info.ranges, _, hinfo d info hd⟩
        fine := { hs with }
        requests := fun d info hd => ⟨info.ranges, hinfo d info hd⟩ }

theorem readEmbedding_reads {s : Resolution} {f : FrameId} {frame : Frame}
    (hf : s.frame? f = some frame) (location : Location) (text : String) :
    After True (readEmbedding f location text) s fun link _ => link.Reads frame.document text := by
  unfold readEmbedding
  rw [After.bind_iff]
  cases hread : Link.read? false text with
  | error e => exact trivial
  | ok l =>
    unfold ofLink
    rw [After.pure_iff]
    dsimp only
    rw [After.ite_iff]
    refine ⟨fun _ => trivial, fun _ => ?_⟩
    rw [After.bind_iff, After.get_iff, documentOf_eq hf]
    cases habs : l.abs? frame.document false with
    | error e => exact trivial
    | ok link => exact ⟨l, hread, habs⟩

/-- A fixed state is set for a node that has none. -/
theorem setFixed_spec {s : Resolution} (hs : Fine K s) {f : FrameId} {frame : Frame}
    (hf : s.frame? f = some frame) {key : NodeKey} (state : NodeState) (hk : K.key key)
    (hst : state.isFixed = true) (hfree : s.fixed? frame.scope key = none) :
    After True (setState f key state) s fun _ s' =>
      Registers K frame.scope frame.document [.node key] [] s s' ∧ s'.Holds f key state := by
  have hscope := scopeOf_eq hf
  have hlt : frame.scope.index < s.registry.scopes.size := hscope ▸ hs.scope_lt f
  have heq : ∀ τ k, (s.setState f key state).fixed? τ k =
      if τ = frame.scope ∧ k = key then some state else s.fixed? τ k := by
    intro τ k
    rw [fixed?_setState, hscope]
    simp [Option.filter, hst]
  refine ⟨{ Grows.refl s with
    fixed := ?_
    fine := { hs with fixed_mem := ?_ }
    written := by simp
    touched := ?_
    size := rfl
    entries := rfl
    requests := fun d info hd => ⟨info.ranges, hd.trans (by simp)⟩ },
    frame, hf, by rw [heq, if_pos ⟨rfl, rfl⟩]⟩
  · intro τ k st h
    rw [heq, if_neg, h]
    rintro ⟨rfl, rfl⟩
    simp [hfree] at h
  · intro τ k st h
    rw [heq] at h
    split at h
    next hτ => exact ⟨hτ.2 ▸ hk, hτ.1 ▸ hlt⟩
    · exact hs.fixed_mem τ k st h
  · intro τ k _ hne
    rw [heq] at hne
    split at hne
    next hτ => exact ⟨hτ.1, by simp [hτ.2]⟩
    · exact (hne rfl).elim

/-- Registers a labeled node under tags that are evaluated already. -/
def registerUnder (f : FrameId) (h : Heading) (id : LabelId) (tags : List String × Bool) :
    Run FrameId := do
  requestRange f id.typ
  let s ← get
  let e : Entry := { id, document := s.documentOf f, location := h.location }
  let entry ← registry (Registry.registerEntry (s.scopeOf f) e (tags.1 ++ [id.text]) tags.2)
  registerText f h.title
  let inner ← subRangeFrame f id.typ (.below id)
  setState f h.key (.labeled entry inner)
  return inner

/-- The tags of a labeled node, and whether they are explicit. -/
def headingTags (f : FrameId) (h : Heading) : Run (List String × Bool) :=
  match h.tag with
  | none => pure ([], false)
  | some tag => do
    let (tag, explicit) ← evaluateTag f h.location tag
    pure (if tag = "" then ([], false) else ([tag], explicit))

theorem Reading.headingTags {P : FrameId → (α : Type) → Run α → Prop} (hP : Reading P)
    (f : FrameId) (h : Heading) : P f (List String × Bool) (Run.headingTags f h) := by
  unfold Run.headingTags
  split
  · exact hP.pure _
  · exact hP.bind (hP.evaluateTag f h.location _) fun _ => hP.pure _

theorem registerHeading_eq (f : FrameId) (h : Heading) : registerHeading f h = (do
    let typ := h.typeIn (← get).options
    let ids ← nextId f typ
    let tags ← headingTags f h
    registerUnder f h (ids.id typ) tags) := by
  unfold registerHeading headingTags registerUnder
  cases h.tag <;> simp [Ordinals.id]

/-- What the registration of a labeled node leaves. -/
structure Headed (K : Stock) (s s' : Resolution) (f : FrameId) (frame : Frame)
    (h : Heading) (typ : String) (entry : EntryId) (inner : FrameId) : Prop where
  registers : Registers K frame.scope frame.document [.node h.key] [.heading f h entry inner] s s'
  holds : s'.Holds f h.key (.labeled entry inner)
  inside : s'.Inside f inner (IsSubRange typ)
  registered : s'.Registered entry (s'.documentOf f) typ
  frame : ∃ frame', s'.frame? inner = some frame' ∧ frame'.scope = frame.scope ∧
    frame'.document = frame.document

theorem registerUnder_spec {s : Resolution} (hs : Fine K s) {f : FrameId} {frame : Frame}
    (hf : s.frame? f = some frame) {h : Heading} (hk : K.key h.key) (hw : K.heading h)
    (ht : h.title.Fits K)
    (hfree : s.fixed? frame.scope h.key = none) (id : LabelId) (tags : List String × Bool) :
    After True (registerUnder f h id tags) s fun inner s' =>
      ∃ entry, Headed K s s' f frame h id.typ entry inner := by
  unfold registerUnder
  rw [After.bind_iff]
  refine (requestRange_quietly f id.typ s hs).mono fun _ s₁ ⟨h₁, _⟩ => ?_
  rw [After.bind_iff, After.get_iff]
  dsimp only
  rw [After.bind_iff, registry_iff]
  refine (Registry.registerEntry_spec (K := K) _ _ _ _ _).mono fun entry r hr => ?_
  set s₂ : Resolution := { s₁ with registry := r } with hs₂
  have h₂ : ∀ inner, Registers K frame.scope frame.document [] [.heading f h entry inner] s s₂ := fun inner =>
    (Registers.of_quiet h₁ frame.scope frame.document []).trans
      (.of_added h₁.fine hr rfl frame.scope frame.document [] f hw inner)
  rw [After.bind_iff]
  refine (registerText_quietly f ht s₂ (h₂ f).fine).mono fun _ s₃ ⟨hq₃, _⟩ => ?_
  have h₃' : ∀ inner, Registers K frame.scope frame.document [] [.heading f h entry inner] s s₃ := fun inner => by
    simpa using (h₂ inner).trans (.of_quiet hq₃ frame.scope frame.document [])
  obtain ⟨frame₃, hf₃, ha₃⟩ := (h₃' f).frame f frame hf
  rw [After.bind_iff]
  unfold subRangeFrame
  rw [After.bind_iff, After.get_iff, pushFrame_iff]
  set pushed : Frame := ⟨some f, s₃.documentOf f, s₃.scopeOf f, .subRange id.typ (.below id) none⟩
    with hpushed
  set inner := s₃.freshFrame with hinner
  set s₄ : Resolution := { s₃ with frames := s₃.frames.push pushed } with hs₄
  have h₃ := h₃' inner
  have hq₄ : Quiet K s₃ s₄ := .push h₃.fine (h₃.fine.scope_lt f) rfl
  have h₄ : Registers K frame.scope frame.document [] [.heading f h entry inner] s s₄ := by
    simpa using h₃.trans (.of_quiet hq₄ frame.scope frame.document [])
  have hf₄ : s₄.frame? f = some frame₃ := by
    rw [hs₄, frame?_push, if_neg (freshFrame_of_frame? hf₃), hf₃]
  have hi₄ : s₄.frame? inner = some pushed := by
    rw [hs₄, frame?_push, if_pos hinner]
  have hlt : frame.scope.index < s.registry.scopes.size := scopeOf_eq hf ▸ hs.scope_lt f
  have hfree₄ : s₄.fixed? frame₃.scope h.key = none := by
    rw [ha₃.2.2.1]
    exact h₄.free hlt (show s.Free frame.scope [.node h.key] by simpa [Free] using hfree) (by simp)
      h.key (by simp)
  have hin₄ : s₄.Inside f inner (IsSubRange id.typ) :=
    ⟨frame₃, pushed, hf₄, hi₄, rfl, documentOf_eq hf₃, rfl⟩
  have hreg₄ : s₄.Registered entry (s₄.documentOf f) id.typ := by
    obtain ⟨anchors, hnew⟩ := hr.new
    have hnew₂ : s₂.Registered entry (s₁.documentOf f) id.typ := ⟨_, hnew, rfl, rfl⟩
    have hd : s₄.documentOf f = s₁.documentOf f := by
      rw [h₄.documentOf_eq hf, h₁.documentOf_eq hf]
    exact hd ▸ (hnew₂.keeps hq₃.keeps).keeps hq₄.keeps
  rw [After.bind_iff]
  refine (setFixed_spec h₄.fine hf₄ _ hk rfl hfree₄).mono fun _ s₅ ⟨h₅, hholds⟩ => ?_
  have hd : s₅.documentOf f = s₄.documentOf f := h₅.documentOf_eq hf₄
  obtain ⟨frame₅, hi₅, ha₅⟩ := h₅.frame inner pushed hi₄
  refine ⟨entry, ?_, hholds, hin₄.keeps h₅.keeps fun _ _ => IsSubRange.alike,
    hd ▸ hreg₄.keeps h₅.keeps, frame₅, hi₅, ?_, ?_⟩
  · rw [ha₃.2.2.1, ha₃.2.1] at h₅
    simpa using h₄.trans h₅
  · rw [ha₅.2.2.1]
    exact (scopeOf_eq hf₃).trans ha₃.2.2.1
  · rw [ha₅.2.1]
    exact (documentOf_eq hf₃).trans ha₃.2.1

theorem Headed.of_quiet {s s₁ s' : Resolution} {f : FrameId} {frame frame₁ : Frame} {h : Heading}
    {typ : String} {entry : EntryId} {inner : FrameId}
    (hh : Headed K s₁ s' f frame₁ h typ entry inner) (hq : Quiet K s s₁)
    (ha : frame.Alike frame₁) : Headed K s s' f frame h typ entry inner := by
  obtain ⟨hr, hholds, hin, hreg, frame', hi, hs, hd⟩ := hh
  refine ⟨?_, hholds, hin, hreg, frame', hi, hs.trans ha.2.2.1, hd.trans ha.2.1⟩
  rw [ha.2.2.1, ha.2.1] at hr
  exact (Registers.of_quiet hq frame.scope frame.document []).trans hr

/-- The nodes inside a labeled node stay free while that is registered. -/
theorem Headed.free_body {s s' : Resolution} {f : FrameId} {frame : Frame} {h : Heading}
    {typ : String} {entry : EntryId} {inner : FrameId}
    (hh : Headed K s s' f frame h typ entry inner) (hs : Fine K s) (hf : s.frame? f = some frame)
    {body : List Node} (hn : Node.Fits K [.labeled h body])
    (hfree : s.Free frame.scope (Node.uses (.labeled h body))) :
    s'.Free frame.scope (Node.usesAll body) := by
  have huses : Node.uses (.labeled h body) =
      [.node h.key] ++ (h.title.uses ++ Node.usesAll body) := by simp [Node.uses]
  have hnodup : (Node.uses (.labeled h body)).Nodup := by
    simpa [Node.usesAll] using hn.fit.nodup
  rw [huses] at hnodup
  refine hh.registers.free (scopeOf_eq hf ▸ hs.scope_lt f)
    (fun k hk => hfree k (by simp [huses, hk])) fun k hk hk' => ?_
  exact (List.nodup_append.1 hnodup).2.2 _ hk _ (by simp [hk']) rfl

theorem registerHeading_spec {s : Resolution} (hs : Fine K s) {f : FrameId} {frame : Frame}
    (hf : s.frame? f = some frame) {h : Heading} (hk : K.key h.key) (hw : K.heading h)
    (ht : h.title.Fits K)
    (hfree : s.fixed? frame.scope h.key = none) :
    After True (registerHeading f h) s fun inner s' =>
      ∃ entry, Headed K s s' f frame h (h.typeIn s.options) entry inner := by
  rw [registerHeading_eq, After.bind_iff, After.get_iff]
  dsimp only
  rw [After.bind_iff]
  refine (nextId_quietly f _ s hs).mono fun ids s₁ ⟨h₁, _⟩ => ?_
  rw [After.bind_iff]
  refine (Quietly.reading.headingTags f h s₁ h₁.fine).mono fun tags s₂ ⟨h₂, _⟩ => ?_
  have hq := h₁.trans h₂
  obtain ⟨frame₂, hf₂, ha₂⟩ := hq.frame f frame hf
  have hfree₂ : s₂.fixed? frame₂.scope h.key = none := by
    rw [ha₂.2.2.1, hq.fixed_eq, hfree]
  refine (registerUnder_spec hq.fine hf₂ hk hw ht hfree₂ (ids.id (h.typeIn s.options)) tags).mono ?_
  rintro inner s' ⟨entry, hh⟩
  exact ⟨entry, hh.of_quiet hq ha₂⟩

/-- Registration of nodes makes them part of a walk. -/
def Registering (K : Stock) (register : FrameId → List Node → Run Unit) : Prop :=
  ∀ f nodes s frame, Fine K s → s.frame? f = some frame → Node.Fits K nodes →
    s.Free frame.scope (Node.usesAll nodes) →
    After True (register f nodes) s fun _ s' => ∃ vs,
      Registers K frame.scope frame.document (Node.usesAll nodes) vs s s' ∧ Walk s' f nodes vs

theorem fits_key {n : Node} (h : Node.Fits K [n]) {k : NodeKey} (hk : .node k ∈ n.uses) :
    K.key k :=
  h.fit.node k (by simpa [Node.usesAll] using hk)

theorem setState_spec {s : Resolution} (hs : Fine K s) {f : FrameId} {frame : Frame}
    (hf : s.frame? f = some frame) {key : NodeKey} {state : NodeState}
    (hst : state.isFixed = false) (hfree : s.fixed? frame.scope key = none) :
    After True (setState f key state) s fun _ s' => Quiet K s s' :=
  .setState hs hst (scopeOf_eq hf ▸ hfree)

variable {enter : FrameId → List Node → Run Unit}

theorem registerEmbedding_spec {s : Resolution} (hs : Fine K s) {f : FrameId} {frame : Frame}
    (hf : s.frame? f = some frame) {key : NodeKey} {location : Location} {written : String}
    (hn : Node.Fits K [.embedding key location written])
    (hfree : s.Free frame.scope (Node.uses (.embedding key location written))) :
    After True (registerNode enter f (.embedding key location written)) s fun _ s' => ∃ vs,
      Registers K frame.scope frame.document (Node.uses (.embedding key location written)) vs s s' ∧
        Walk s' f [.embedding key location written] vs := by
  have hkey := fits_key hn (k := key) (by simp [Node.uses])
  have hfree := hfree key (by simp [Node.uses])
  unfold registerNode registerEmbedding
  rw [After.bind_iff, After.get_iff]
  dsimp only
  rw [After.bind_iff]
  refine (nextId_quietly f _ s hs).mono fun _ s₁ ⟨h₁, _⟩ => ?_
  rw [After.bind_iff]
  refine (requestRange_quietly f _ s₁ h₁.fine).mono fun _ s₂ ⟨h₂, _⟩ => ?_
  rw [After.bind_iff]
  obtain ⟨frame₂, hf₂, ha₂⟩ := (h₁.trans h₂).frame f frame hf
  refine ((Quietly.reading.readEmbedding f location written s₂ h₂.fine).and
    (readEmbedding_reads hf₂ location written)).mono fun link s₃ ⟨⟨h₃, _⟩, hl⟩ => ?_
  have hq := (h₁.trans h₂).trans h₃
  obtain ⟨frame₃, hf₃, ha₃⟩ := hq.frame f frame hf
  rw [After.bind_iff]
  refine (requestDocument_spec hq.fine hf₃ key location link).mono fun _ s₄ h₄ => ?_
  rw [ha₃.2.2.1, ha₃.2.1] at h₄
  have h₄ := (Registers.of_quiet hq frame.scope frame.document []).trans h₄
  obtain ⟨frame₄, hf₄, ha₄⟩ := h₄.frame f frame hf
  have hlt : frame.scope.index < s.registry.scopes.size := scopeOf_eq hf ▸ hs.scope_lt f
  have hfree₄ : s₄.Free frame.scope [.node key] :=
    h₄.free hlt (by simpa [Free] using hfree) (by simp)
  refine (setFixed_spec h₄.fine hf₄ _ hkey rfl (ha₄.2.2.1 ▸ hfree₄ key (by simp))).mono
    fun _ s₅ ⟨h₅, hholds⟩ => ?_
  rw [ha₄.2.2.1, ha₄.2.1] at h₅
  have hd : s₅.documentOf f = frame₂.document := by
    rw [(h₄.trans h₅).documentOf_eq hf, documentOf_eq hf, ha₂.2.1]
  exact ⟨[.embedding f key location link], by simpa [Node.uses] using h₄.trans h₅,
    .embedding f key location written hholds (hd ▸ hl) (.nil f)⟩

theorem registerTerm_spec {s : Resolution} (hs : Fine K s) {f : FrameId} {frame : Frame}
    (hf : s.frame? f = some frame) {key : NodeKey} {location : Location} {tag : String}
    {content : InlineText} (hn : Node.Fits K [.term key location tag content])
    (hfree : s.Free frame.scope (Node.uses (.term key location tag content))) :
    After True (registerNode enter f (.term key location tag content)) s fun _ s' => ∃ vs,
      Registers K frame.scope frame.document (Node.uses (.term key location tag content)) vs s s' ∧
        Walk s' f [.term key location tag content] vs := by
  have hfree := hfree key (by simp [Node.uses])
  have ht : content.Fits K := fun k hk =>
    hn.fit.part k (by simp [Node.usesAll, Node.uses, hk])
  unfold registerNode registerTerm
  rw [After.bind_iff]
  refine (Quietly.reading.evaluateTag f location tag s hs).mono fun evaluated s₁ ⟨h₁, _⟩ => ?_
  dsimp only
  rw [After.bind_iff, After.get_iff, After.bind_iff]
  refine (registry_quietly (Registry.registerTag_quietly _ termType _ _ _) s₁ h₁.fine).mono
    fun _ s₂ ⟨h₂, _⟩ => ?_
  have hq := h₁.trans h₂
  obtain ⟨frame₂, hf₂, ha₂⟩ := hq.frame f frame hf
  rw [After.bind_iff]
  refine (setState_spec hq.fine hf₂ rfl (by rw [ha₂.2.2.1, hq.fixed_eq, hfree])).mono
    fun _ s₃ h₃ => ?_
  refine (registerText_quietly f ht s₃ h₃.fine).mono fun _ s₄ ⟨h₄, _⟩ => ?_
  exact ⟨[.term f key location content],
    (Registers.of_quiet ((hq.trans h₃).trans h₄) frame.scope frame.document _).of_visits rfl rfl rfl,
    .term f key location tag content (.nil f)⟩

/-- An expansion is registered before the nodes of its block, and these in a scope of their own. -/
theorem registerExpansion_spec (he : Registering K enter) {s : Resolution} (hs : Fine K s) {f : FrameId}
    {frame : Frame} (hf : s.frame? f = some frame) {key : NodeKey} {location : Location}
    {block : String} {tag : Option String} {arguments : Table InlineText}
    (hn : Node.Fits K [.expansion key location block tag arguments])
    (hfree : s.Free frame.scope (Node.uses (.expansion key location block tag arguments))) :
    After True (registerNode enter f (.expansion key location block tag arguments)) s fun _ s' =>
      ∃ vs, Registers K frame.scope frame.document
        (Node.uses (.expansion key location block tag arguments)) vs s s' ∧
          Walk s' f [.expansion key location block tag arguments] vs := by
  have hkey := fits_key hn (k := key) (by simp [Node.uses])
  have hfree := hfree key (by simp [Node.uses])
  unfold registerNode
  rw [After.bind_iff]
  refine (openExpansion_spec f location block tag (fun _ _ ha => hn.arguments ha) hs hf).mono ?_
  rintro ⟨inner, body⟩ s₁ ⟨h₁, hopened, hbody⟩
  obtain ⟨frame₁, hf₁, ha₁⟩ := h₁.frame f frame hf
  have hscope := ha₁.2.2.1
  dsimp only
  rw [After.bind_iff]
  refine (setFixed_spec h₁.fine hf₁ (.expansion inner body) hkey rfl
    (by rw [hscope, h₁.fixed_eq, hfree])).mono fun _ s₂ ⟨h₂, hholds⟩ => ?_
  obtain ⟨fr₁, hi₁, hnew, hdoc, hparent, hkind⟩ := hopened.frame
  obtain ⟨fr₂, hi₂, hai⟩ := h₂.frame inner fr₁ hi₁
  have hlt : frame.scope.index < s.registry.scopes.size := scopeOf_eq hf ▸ hs.scope_lt f
  have hfree₂ : s₂.Free fr₂.scope (Node.usesAll body) := by
    rw [hai.2.2.1]
    rw [hscope] at h₂
    exact h₂.free_opened hs h₁ hlt hnew (scopeOf_eq hi₁ ▸ h₁.fine.scope_lt inner) _
  refine (he inner body s₂ fr₂ h₂.fine hi₂ hbody hfree₂).mono ?_
  rintro _ s₃ ⟨ws, h₃, hw₃⟩
  refine ⟨.expansion f key location inner :: (ws ++ []), ?_, .expansion f key location block tag
    arguments (hholds.keeps h₃.keeps) ?_ hw₃ (.nil f)⟩
  · rw [hscope, ha₁.2.1] at h₂
    rw [hai.2.1, hdoc, documentOf_eq hf] at h₃
    rw [List.append_nil]
    have h₁₃ := ((Registers.of_quiet h₁ frame.scope frame.document []).trans h₂).enter h₃ (hai.2.2.1 ▸ hnew)
    have h : Registers K frame.scope frame.document ([] ++ [.node key])
        (.expansion f key location inner :: ws) s s₃ := h₁₃.of_visits rfl rfl rfl
    refine h.mono fun k hk => ?_
    simpa [Node.uses] using Or.inl (List.mem_singleton.1 hk)
  · refine Inside.keeps ?_ (h₂.toGrows.trans h₃.toGrows).keeps fun _ _ => IsBlock.alike
    obtain ⟨calls, hkind⟩ := hkind
    exact ⟨frame₁, fr₁, hf₁, hi₁, hparent, hdoc.trans (by rw [documentOf_eq hf, ha₁.2.1]),
      by rw [hkind]; trivial⟩

/-- A labeled node is registered before its body, and that inside of it. -/
theorem registerLabeled_spec {s : Resolution} (hs : Fine K s) {f : FrameId} {frame : Frame}
    (hf : s.frame? f = some frame) {heading : Heading} {body : List Node}
    (hn : Node.Fits K [.labeled heading body])
    (hfree : s.Free frame.scope (Node.uses (.labeled heading body)))
    (hbody : ∀ inner s₁ frame₁, Fine K s₁ → s₁.frame? inner = some frame₁ → Node.Fits K body →
      s₁.Free frame₁.scope (Node.usesAll body) →
      After True (registerNodes enter inner body) s₁ fun _ s' => ∃ vs,
        Registers K frame₁.scope frame₁.document (Node.usesAll body) vs s₁ s' ∧ Walk s' inner body vs) :
    After True (registerNode enter f (.labeled heading body)) s fun _ s' => ∃ vs,
      Registers K frame.scope frame.document (Node.uses (.labeled heading body)) vs s s' ∧
        Walk s' f [.labeled heading body] vs := by
  have hkey := fits_key hn (k := heading.key) (by simp [Node.uses])
  unfold registerNode
  rw [After.bind_iff]
  refine (registerHeading_spec hs hf hkey hn.heading hn.title (hfree _ (by simp [Node.uses]))).mono ?_
  rintro inner s₁ ⟨entry, h₁⟩
  obtain ⟨frame₁, hi₁, hscope, hdoc⟩ := h₁.frame
  have huses : Node.uses (.labeled heading body) =
      [.node heading.key] ++ (heading.title.uses ++ Node.usesAll body) := by simp [Node.uses]
  have hfree₁ : s₁.Free frame₁.scope (Node.usesAll body) := by
    rw [hscope]
    exact h₁.free_body hs hf hn hfree
  refine (hbody inner s₁ frame₁ h₁.registers.fine hi₁ hn.body hfree₁).mono ?_
  rintro _ s₂ ⟨ws, h₂, hw₂⟩
  rw [hscope, hdoc] at h₂
  have hopt : s₂.options = s.options := h₂.options.trans h₁.registers.options
  obtain ⟨outer, fr, ho, -⟩ := id h₁.inside
  have hd : s₂.documentOf f = s₁.documentOf f := h₂.documentOf_eq ho
  refine ⟨.heading f heading entry inner :: (ws ++ []), ?_, .labeled f heading
    (h₁.holds.keeps h₂.keeps) (hopt ▸ h₁.inside.keeps h₂.keeps fun _ _ => IsSubRange.alike)
    (hopt ▸ hd ▸ h₁.registered.keeps h₂.keeps) hw₂ (.nil f)⟩
  rw [List.append_nil]
  refine (h₁.registers.trans h₂).mono fun k hk => ?_
  simp only [huses, List.mem_append] at hk ⊢
  exact hk.imp_right .inr

mutual

theorem registerNode_spec (he : Registering K enter) :
    ∀ (n : Node) f s frame, Fine K s → s.frame? f = some frame → Node.Fits K [n] →
      s.Free frame.scope n.uses →
      After True (registerNode enter f n) s fun _ s' => ∃ vs,
        Registers K frame.scope frame.document n.uses vs s s' ∧ Walk s' f [n] vs
  | .text content => by
    intro f s frame hs hf hn hfree
    unfold registerNode
    have ht : content.Fits K := fun k hk => hn.fit.part k (by simpa [Node.usesAll, Node.uses] using hk)
    refine (registerText_quietly f ht s hs).mono fun _ s' ⟨h, _⟩ => ?_
    exact ⟨[.text f content], (Registers.of_quiet h frame.scope frame.document _).of_visits rfl rfl rfl,
      .text f content (.nil f)⟩
  | .labeled heading body => by
    intro f s frame hs hf hn hfree
    exact registerLabeled_spec hs hf hn hfree (registerNodes_spec he body)
  | .embedding key location written => by
    intro f s frame hs hf hn hfree
    exact registerEmbedding_spec hs hf hn hfree
  | .expansion key location block tag arguments => by
    intro f s frame hs hf hn hfree
    exact registerExpansion_spec he hs hf hn hfree
  | .term key location tag content => by
    intro f s frame hs hf hn hfree
    exact registerTerm_spec hs hf hn hfree
  | .probe key location questions body => by
    intro f s frame hs hf hn hfree
    simpa [Node.asksAny, Node.asks] using hn.quiet

theorem registerNodes_spec (he : Registering K enter) :
    ∀ (nodes : List Node) f s frame, Fine K s → s.frame? f = some frame → Node.Fits K nodes →
      s.Free frame.scope (Node.usesAll nodes) →
      After True (registerNodes enter f nodes) s fun _ s' => ∃ vs,
        Registers K frame.scope frame.document (Node.usesAll nodes) vs s s' ∧ Walk s' f nodes vs
  | [] => by
    intro f s frame hs hf hn hfree
    exact ⟨[], .of_quiet (.refl hs) _ _ _, .nil f⟩
  | n :: rest => by
    intro f s frame hs hf hn hfree
    unfold registerNodes
    rw [After.bind_iff]
    have hlt : frame.scope.index < s.registry.scopes.size := scopeOf_eq hf ▸ hs.scope_lt f
    refine (registerNode_spec he n f s frame hs hf hn.head
      fun k hk => hfree k (List.mem_append_left _ hk)).mono ?_
    rintro _ s₁ ⟨vs, h₁, hw₁⟩
    obtain ⟨frame₁, hf₁, ha₁⟩ := h₁.frame f frame hf
    have hscope := ha₁.2.2.1
    have hfree₁ : s₁.Free frame₁.scope (Node.usesAll rest) := by
      rw [hscope]
      exact h₁.free_rest hlt hn hfree
    refine (registerNodes_spec he rest f s₁ frame₁ h₁.fine hf₁ hn.tail hfree₁).mono ?_
    rintro _ s₂ ⟨ws, h₂, hw₂⟩
    rw [hscope, ha₁.2.1] at h₂
    exact ⟨vs ++ ws, h₁.trans h₂, (hw₁.keeps h₂.keeps).cons hw₂⟩

end

theorem registering_registerNodes (he : Registering K enter) :
    Registering K (registerNodes enter) := fun f nodes => registerNodes_spec he nodes f

theorem registering_registerWithin (fuel : Nat) : Registering K (registerWithin fuel) := by
  induction fuel with
  | zero =>
    intro f nodes s frame _ _ _ _
    unfold registerWithin
    rw [After.bind_iff, After.get_iff]
    exact trivial
  | succ fuel ih =>
    intro f nodes
    unfold registerWithin
    exact registering_registerNodes ih f nodes

end Run

end Folio
