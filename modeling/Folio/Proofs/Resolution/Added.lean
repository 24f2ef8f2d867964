import Folio.Proofs.Resolution.Telling

/-!
# Texts that are added

A pass adds texts to what is known, and takes none back. `Resolution.Adds` is the order that this
makes, and what can be written out is written out in the same way with more texts
(`Adds.renderText`). So a text that is found once is found again (`Adds.told?`), and as long as the
texts that are kept are those that would be found (`Resolution.Consistent`), a visit replaces none
of them by another one (`Laid.find`). That is the step from which `Laid.visits_ends` follows for any
number of visits, in whichever order they are made.
-/

namespace Folio

open Resolution

/-- A loop that takes what a loop before could take answers the same. -/
theorem mapM_eq_ok_of_imp {α β ε : Type} {f g : α → Except ε β} {xs : List α} {ys : List β}
    (hfg : ∀ x ∈ xs, ∀ y, f x = .ok y → g x = .ok y) (h : xs.mapM f = .ok ys) :
    xs.mapM g = .ok ys := by
  induction xs generalizing ys with
  | nil => exact h
  | cons x xs ih =>
    obtain ⟨hx, hxs⟩ := List.forall_mem_cons.1 hfg
    rw [List.mapM_cons] at h ⊢
    cases hf : f x with
    | error e =>
      rw [hf] at h
      cases h
    | ok y =>
      rw [hf] at h
      rw [hx y hf]
      change (xs.mapM f >>= fun ys => pure (y :: ys)) = _ at h
      change (xs.mapM g >>= fun ys => pure (y :: ys)) = _
      cases hfs : xs.mapM f with
      | error e =>
        rw [hfs] at h
        cases h
      | ok zs =>
        rw [hfs] at h
        rw [ih hxs hfs]
        exact h

/-- Names are looked up without a look at labeled nodes. -/
theorem Registry.chain_entries (r : Registry) (entries : Array Entry) (up : Scope → Option ScopeId)
    (fuel : Nat) (start : Option ScopeId) :
    chain { r with entries } up fuel start = r.chain up fuel start := by
  induction fuel generalizing start with
  | zero => cases start <;> rfl
  | succ fuel ih =>
    cases start with
    | none => rfl
    | some scope => exact congrArg (scope :: ·) (ih _)

namespace Resolution

variable {s s' s'' : Resolution}

namespace Settled

theorem scopeOf (h : s.Settled s') (f : FrameId) : s'.scopeOf f = s.scopeOf f := by
  rw [h.same]
  rfl

theorem frames_size (h : s.Settled s') : s'.frames.size = s.frames.size := by rw [h.same]

theorem documents (h : s.Settled s') : s'.documents = s.documents := by rw [h.same]

theorem place? (h : s.Settled s') (v : Visit) : s'.place? v = s.place? v := by
  cases v with
  | term f key location content => rw [Resolution.place?, Resolution.place?, h.scopeOf]
  | _ => rfl

theorem attribute? (h : s.Settled s') (f : FrameId) (name : String) :
    s'.attribute? f name = s.attribute? f name := by
  rw [h.same, h.registry]
  rfl

theorem lookupTag (h : s.Settled s') (scope : ScopeId) (typ tag : String) :
    s'.registry.lookupTag scope typ tag = s.registry.lookupTag scope typ tag := by
  unfold Registry.lookupTag Registry.findStatic Registry.staticChain
  rw [h.registry, Registry.chain_entries]
  rfl

/-- A reference shows the same labeled node, which may have got a title. -/
theorem referenced? (h : s.Settled s') {target : Option Target} {e : Entry}
    (he : s.referenced? target = some e) : ∃ id title, s.registry.entryAt? id = some e ∧
      s'.registry.entryAt? id = some { e with title } ∧
      s'.referenced? target = some { e with title } := by
  obtain ⟨id, hid, hsame⟩ : ∃ id, s.registry.entryAt? id = some e ∧
      s'.referenced? target = s'.registry.entryAt? id := by
    cases target with
    | none => cases he
    | some target =>
      cases target with
      | entry id => exact ⟨id, he, rfl⟩
      | document path =>
        obtain ⟨id, hroot, hid⟩ := Option.bind_eq_some_iff.1 he
        refine ⟨id, hid, ?_⟩
        have hroot' : s'.registry.root? path = some id := by
          rw [h.registry]
          exact hroot
        rw [Resolution.referenced?, hroot', Option.bind_some]
  obtain ⟨title, hid'⟩ := h.title id e hid
  exact ⟨id, title, hid, hid', hsame.trans hid'⟩

end Settled

/-- Texts are added, and nothing else changes that can be written out. -/
structure Adds (s s' : Resolution) : Prop where
  settled : s.Settled s'
  recalls : Recalls NodeState.untold s s'
  text : ∀ p text, s.textIn? p = some text → s'.textIn? p = some text

namespace Adds

theorem refl (s : Resolution) : s.Adds s := ⟨.refl s, .refl s, fun _ _ h => h⟩

theorem trans (h : s.Adds s') (h' : s'.Adds s'') : s.Adds s'' :=
  ⟨h.settled.trans h'.settled, h.recalls.trans h'.recalls,
    fun p text hp => h'.text p text (h.text p text hp)⟩

theorem of_unresolved (s : Resolution) (unresolved : List Unresolved) :
    s.Adds { s with unresolved } :=
  ⟨.of_unresolved s unresolved, .of_states rfl fun _ => rfl, fun _ _ h => h⟩

/-- A state that is not that of a term stays. -/
theorem state? (h : s.Adds s') {f : FrameId} {key : NodeKey} {st : NodeState}
    (hst : s.state? f key = some st) (hterm : ∀ text, st ≠ .term text) :
    s'.state? f key = some st := by
  obtain ⟨st', hst', heq⟩ := h.recalls f key st hst
  cases st <;> cases st' <;> simp_all [NodeState.untold]

/-- What a reference shows of a labeled node stays. -/
theorem aspect? (h : s.Adds s') {id : EntryId} {e : Entry} {title : Option String}
    (hid : s.registry.entryAt? id = some e)
    (hid' : s'.registry.entryAt? id = some { e with title }) {aspect : Aspect} {shown : String}
    (hshown : s.aspect? e aspect = some shown) : s'.aspect? { e with title } aspect = some shown := by
  cases aspect with
  | label =>
    rw [h.settled.same]
    exact hshown
  | title =>
    have htext : s.textIn? (.title id) = some shown := by
      rw [textIn?, hid]
      exact hshown
    have htext' := h.text _ _ htext
    rw [textIn?, hid'] at htext'
    exact htext'

/-- A term that is known stays. -/
theorem stateIn?_term (h : s.Adds s') {scope : ScopeId} {key : NodeKey} {shown : String}
    (hst : s.stateIn? scope key = some (.term (some shown))) :
    s'.stateIn? scope key = some (.term (some shown)) := by
  have htext : s.textIn? (.term scope key) = some shown := by rw [textIn?, hst]
  have htext' := h.text _ _ htext
  rw [textIn?] at htext'
  split at htext'
  next text' hst' => rw [hst', htext']
  · cases htext'

/-- A part that can be written out is written out in the same way. -/
theorem renderPart (h : s.Adds s')
    {value value' : FrameId → InlineText → Except ResolveError String}
    (hvalue : ∀ f t text, value f t = .ok text → value' f t = .ok text) {f : FrameId}
    {location : Location} {p : Part} {text : String}
    (hp : s.renderPart value f location p = .ok text) :
    s'.renderPart value' f location p = .ok text := by
  rcases p with plain | ⟨key, aspect, written⟩ | ⟨key, name⟩ | name | tag
  · exact hp
  · unfold Resolution.renderPart at hp ⊢
    dsimp only at hp ⊢
    split at hp
    next link target hst =>
      rw [h.state? hst fun _ => NodeState.noConfusion]
      dsimp only
      split at hp
      · cases hp
      next e he =>
        obtain ⟨id, title, hid, hid', he'⟩ := h.settled.referenced? he
        rw [he']
        dsimp only
        split at hp
        next hshown =>
          cases hp
          rw [h.aspect? hid hid' hshown]
        · cases hp
    · cases hp
  · unfold Resolution.renderPart at hp ⊢
    dsimp only at hp ⊢
    split at hp
    next inner body hst =>
      rw [h.state? hst fun _ => NodeState.noConfusion]
      exact hvalue _ _ _ hp
    · cases hp
  · unfold Resolution.renderPart at hp ⊢
    dsimp only at hp ⊢
    rw [h.settled.attribute?]
    exact hp
  · unfold Resolution.renderPart at hp ⊢
    dsimp only at hp ⊢
    rw [h.settled.scopeOf, h.settled.lookupTag]
    split at hp
    · cases hp
    next e he =>
      split at hp
      next shown hst =>
        rw [h.stateIn?_term hst]
        exact hp
      · cases hp

theorem renderTextWithin (h : s.Adds s') {fuel : Nat} {f : FrameId} {t : InlineText}
    {text : String} (ht : s.renderTextWithin fuel f t = .ok text) :
    s'.renderTextWithin fuel f t = .ok text := by
  induction fuel generalizing f t text with
  | zero => cases ht
  | succ fuel ih =>
    unfold Resolution.renderTextWithin at ht ⊢
    cases hmap : t.parts.mapM (s.renderPart (s.renderTextWithin fuel) f t.location) with
    | error e =>
      rw [hmap] at ht
      cases ht
    | ok texts =>
      rw [hmap] at ht
      rw [mapM_eq_ok_of_imp (fun p _ text hp => h.renderPart (fun _ _ _ => ih) hp) hmap]
      exact ht

/-- A text that can be written out is written out in the same way when more is known. -/
theorem renderText (h : s.Adds s') {f : FrameId} {t : InlineText} {text : String}
    (ht : s.renderText f t = .ok text) : s'.renderText f t = .ok text := by
  rw [Resolution.renderText, h.settled.frames_size]
  exact h.renderTextWithin ht

theorem told? (h : s.Adds s') {v : Visit} {text : String} (ht : s.told? v = some text) :
    s'.told? v = some text := by
  cases hi : v.inscription? with
  | none => simp [Resolution.told?, written?, hi] at ht
  | some i =>
    cases hr : s.renderText v.frame i.2 with
    | error e =>
      rw [told?_of_error hi hr] at ht
      cases ht
    | ok written =>
      rw [told?_of_ok hi hr] at ht
      rw [told?_of_ok hi (h.renderText hr), ht]

theorem textAt? (h : s.Adds s') {v : Visit} {text : String} (ht : s.textAt? v = some text) :
    s'.textAt? v = some text := by
  obtain ⟨p, hp, ht⟩ := Option.bind_eq_some_iff.1 ht
  exact Option.bind_eq_some_iff.2 ⟨p, (h.settled.place? v).trans hp, h.text p text ht⟩

end Adds

theorem broken?_of_told {v : Visit} {text : String} (ht : s.told? v = some text)
    (ht' : s'.told? v = some text) : s'.broken? v = s.broken? v := by
  cases v with
  | heading f h entry inner => simp only [broken?, ht, ht']
  | _ => rfl

/-! ## Keeping a text -/

theorem place?_store (s : Resolution) (p : TextPlace) (text : String) (v : Visit) :
    (s.store p text).place? v = s.place? v := by
  cases p <;> cases v <;> rfl

/-- The place of a visit is there. -/
theorem textIn?_store {v : Visit} (hready : s.Ready v) (hsight : s.Sighted v) {p : TextPlace}
    (hp : s.place? v = some p) (text : String) (q : TextPlace) :
    (s.store p text).textIn? q = if q = p then some text else s.textIn? q := by
  cases v with
  | heading f h entry inner =>
    cases hp
    obtain ⟨-, -, e, he, -⟩ := hready
    cases q with
    | title entry' =>
      change (Registry.entryAt? (s.registry.modifyEntry entry _) entry').bind Entry.title = _
      rw [Registry.entryAt?_modifyEntry]
      by_cases heq : entry' = entry
      · subst heq
        simp [he]
      · rw [if_neg heq, if_neg (by simpa using heq)]
        rfl
    | term scope key => rfl
  | term f key location content =>
    cases hp
    obtain ⟨-, old, hst⟩ := hsight
    cases q with
    | title entry => rfl
    | term scope key' =>
      have hstored : (s.store (.term (s.scopeOf f) key) text).stateIn? scope key' =
          if scope = s.scopeOf f ∧ key' = key then some (.term (some text))
          else s.stateIn? scope key' := stateIn?_setState ..
      rw [textIn?, hstored]
      by_cases heq : scope = s.scopeOf f ∧ key' = key
      · rw [if_pos heq, if_pos (by rw [heq.1, heq.2])]
      · rw [if_neg heq, if_neg (by simpa using heq)]
        rfl
  | text | embedding | expansion => cases hp

/-- A text is kept in a place that has no other one. -/
theorem Adds.store {v : Visit} (hready : s.Ready v) (hsight : s.Sighted v) {p : TextPlace}
    (hp : s.place? v = some p) {text : String} (h : ∀ old, s.textIn? p = some old → old = text) :
    s.Adds (s.store p text) := by
  have htext : ∀ q text', s.textIn? q = some text' →
      (s.store p text).textIn? q = some text' := by
    intro q text' hq
    rw [textIn?_store hready hsight hp]
    by_cases heq : q = p
    · subst heq
      rw [if_pos rfl, h text' hq]
    · rw [if_neg heq, hq]
  cases v with
  | heading f h entry inner =>
    cases hp
    exact ⟨.of_title s entry text, .of_states rfl fun _ => rfl, htext⟩
  | term f key location content =>
    cases hp
    obtain ⟨-, old, hst⟩ := hsight
    exact ⟨.of_term hst (some text), .setState hst rfl, htext⟩
  | text | embedding | expansion => cases hp

/-! ## Visits -/

/-- Visits find what they need, and each text has a place of its own. -/
structure Laid (vs : List Visit) (s : Resolution) : Prop where
  ordered : s.Ordered
  ready : ∀ v ∈ vs, s.Ready v
  sighted : ∀ v ∈ vs, s.Sighted v
  nodup : (vs.filterMap s.place?).Nodup

/-- The texts that are kept are those that would be found. -/
def Consistent (vs : List Visit) (s : Resolution) : Prop :=
  ∀ v ∈ vs, ∀ text, s.textAt? v = some text → s.told? v = some text ∧ s.broken? v = none

variable {vs : List Visit}

theorem Laid.adds (h : s.Laid vs) (ha : s.Adds s') : s'.Laid vs where
  ordered := by
    rw [ha.settled.same]
    exact h.ordered
  ready v hv := (h.ready v hv).keeps ha.settled.keeps
  sighted v hv := (h.sighted v hv).recalls
    (ha.recalls.mono fun _ _ => NodeState.core_eq_of_untold) ha.settled.frames_size
  nodup := by
    rw [show s'.place? = s.place? from funext ha.settled.place?]
    exact h.nodup

/-- Texts that are kept are still those that would be found when no other one is kept. -/
theorem Consistent.adds (hc : s.Consistent vs) (ha : s.Adds s')
    (h : ∀ v ∈ vs, ∀ text, s'.textAt? v = some text → s.textAt? v = some text) :
    s'.Consistent vs := by
  intro v hv text ht
  obtain ⟨htold, hb⟩ := hc v hv text (h v hv text ht)
  have hagain := ha.told? htold
  exact ⟨hagain, (broken?_of_told htold hagain).trans hb⟩

/-- A visit adds a text at most, and what is kept is still what would be found. -/
theorem Laid.find (h : s.Laid vs) (hc : s.Consistent vs) {v : Visit} (hv : v ∈ vs)
    (hb : s.broken? v = none) : s.Adds (s.find v) ∧ (s.find v).Consistent vs := by
  have hready := h.ready v hv
  have hsight := h.sighted v hv
  rcases s.find_cases v with ⟨-, -, -, hfind⟩ | ⟨p, text, hp, ht, -, hfind⟩ |
    ⟨-, u, -, -, -, hfind⟩
  · rw [hfind]
    exact ⟨.refl s, hc⟩
  · have hold : ∀ old, s.textIn? p = some old → old = text := fun old ho =>
      Option.some.inj ((hc v hv old (Option.bind_eq_some_iff.2 ⟨p, hp, ho⟩)).1.symm.trans ht)
    have hadds := Adds.store hready hsight hp hold
    rw [hfind]
    refine ⟨hadds, fun w hw text' ht' => ?_⟩
    obtain ⟨q, hq, ht'⟩ := Option.bind_eq_some_iff.1 ht'
    rw [hadds.settled.place?] at hq
    rw [textIn?_store hready hsight hp] at ht'
    -- the text is that of the visit, or it was there before
    have htold : s.told? w = some text' ∧ s.broken? w = none := by
      by_cases heq : q = p
      · subst heq
        obtain rfl := eq_of_nodup_filterMap h.nodup hw hv hq hp
        rw [if_pos rfl] at ht'
        exact ⟨ht.trans ht', hb⟩
      · rw [if_neg heq] at ht'
        exact hc w hw text' (Option.bind_eq_some_iff.2 ⟨q, hq, ht'⟩)
    have hagain := hadds.told? htold.1
    exact ⟨hagain, (broken?_of_told htold.1 hagain).trans htold.2⟩
  · have hadds := Adds.of_unresolved s (s.unresolved ++ [u])
    rw [hfind]
    exact ⟨hadds, hc.adds hadds fun _ _ _ => id⟩

/-- A visit keeps a text in its own place only. -/
theorem Laid.textIn?_find (h : s.Laid vs) {v : Visit} (hv : v ∈ vs) {p : TextPlace} {text : String}
    (hp : (s.find v).textIn? p = some text) : s.textIn? p = some text ∨ s.place? v = some p := by
  rcases s.find_cases v with ⟨-, -, -, hfind⟩ | ⟨q, found, hq, -, -, hfind⟩ | ⟨-, u, -, -, -, hfind⟩
  · rw [hfind] at hp
    exact .inl hp
  · rw [hfind, textIn?_store (h.ready v hv) (h.sighted v hv) hq] at hp
    by_cases heq : p = q
    · exact .inr (heq ▸ hq)
    · rw [if_neg heq] at hp
      exact .inl hp
  · rw [hfind] at hp
    exact .inl hp

/-! ## Counting what is missing -/

/-- A text is looked for at a visit and is not there. -/
def lacks (s : Resolution) (v : Visit) : Bool := (s.place? v).isSome && (s.textAt? v).isNone

theorem lacks_of_place? {v : Visit} {p : TextPlace} (hp : s.place? v = some p) :
    s.lacks v = (s.textIn? p).isNone := by
  simp [lacks, textAt?, hp]

/-- A text that is there is there later on. -/
theorem Adds.lacks (h : s.Adds s') {v : Visit} (hv : s'.lacks v = true) : s.lacks v = true := by
  rw [Resolution.lacks, h.settled.place?, Bool.and_eq_true, Option.isNone_iff_eq_none] at hv
  rw [Resolution.lacks, Bool.and_eq_true, Option.isNone_iff_eq_none,
    Option.eq_none_iff_forall_not_mem]
  refine ⟨hv.1, fun text ht => ?_⟩
  cases hv.2.symm.trans (h.textAt? ht)

/-- After a visit its text is missing exactly if it has been noted. -/
theorem Laid.find_lacks (h : s.Laid vs) (hc : s.Consistent vs) {v : Visit} (hv : v ∈ vs) :
    (s.find v).lacks v = (s.missing? v).isSome := by
  rcases s.find_cases v with ⟨hp, -, hm, hfind⟩ | ⟨p, text, hp, ht, hm, hfind⟩ |
    ⟨p, u, hp, ht, hm, hfind⟩
  · simp [hfind, hm, lacks, hp]
  · rw [hfind, lacks_of_place? ((place?_store ..).trans hp),
      textIn?_store (h.ready v hv) (h.sighted v hv) hp, if_pos rfl, hm]
    rfl
  · have hnone : s.textAt? v = none := by
      cases hold : s.textAt? v with
      | none => rfl
      | some old => cases ht.symm.trans (hc v hv old hold).1
    rw [hfind, hm]
    change s.lacks v = true
    simp [lacks, hp, hnone]

/-- A visit leaves the texts of others. -/
theorem Laid.find_lacks_of_ne (h : s.Laid vs) {v w : Visit} (hv : v ∈ vs)
    (hne : ∀ p, s.place? w = some p → s.place? v ≠ some p) : (s.find v).lacks w = s.lacks w := by
  rcases s.find_cases v with ⟨-, -, -, hfind⟩ | ⟨p, text, hp, -, -, hfind⟩ | ⟨-, u, -, -, -, hfind⟩
  · rw [hfind]
  · rw [hfind]
    cases hw : s.place? w with
    | none => simp [lacks, place?_store, hw]
    | some q =>
      have hqp : q ≠ p := fun heq => hne q hw (heq ▸ hp)
      rw [lacks_of_place? ((place?_store ..).trans hw), lacks_of_place? hw,
        textIn?_store (h.ready v hv) (h.sighted v hv) hp, if_neg hqp]
  · rw [hfind]
    rfl

end Resolution

end Folio
