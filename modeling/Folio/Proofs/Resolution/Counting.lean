import Folio.Proofs.Resolution.Calm
import Folio.Proofs.Resolution.Chain
import Folio.Proofs.Resolution.Stated

/-!
# Registration counts as the tally does

Registering nodes changes the tally in the frames as the visits of their walk do, and the entries
get the ids that they are counted under (`Resolution.Tallied`). Most steps give out no id at all
(`Run.Uncounting`).

Which frame counts a visit does not depend on what comes later, so it can be told from any later
resolution. That way registrations that follow each other count on (`Tallied.trans`).
-/

namespace Folio

open Resolution

/-- The step gives out no id. -/
def Run.Uncounting {α : Type} (m : Run α) : Prop :=
  ∀ s, After True m s fun _ s' => s'.tally = s.tally

namespace Run

variable {α β : Type}

namespace Uncounting

theorem of_calm {m : Run α} (h : Calmly m) : Uncounting m :=
  fun s => (h s).mono fun _ _ h => h.tally

theorem bind {m : Run α} {k : α → Run β} (hm : Uncounting m) (hk : ∀ a, Uncounting (k a)) :
    Uncounting (m >>= k) := by
  intro s
  rw [After.bind_iff]
  exact (hm s).mono fun a s' h => (hk a s').mono fun _ _ h' => h'.trans h

theorem get_bind {k : Resolution → Run β}
    (hk : ∀ s, After True (k s) s fun _ s' => s'.tally = s.tally) : Uncounting (get >>= k) := by
  intro s
  rw [After.bind_iff]
  exact hk s

theorem forM {f : α → Run PUnit} (xs : List α) (hf : ∀ x ∈ xs, Uncounting (f x)) :
    Uncounting (xs.forM f) :=
  fun s => After.forM (I := fun s' => s'.tally = s.tally)
    (fun x hx s' h => (hf x hx s').mono fun _ _ h' => h'.trans h) rfl

end Uncounting

theorem requestRange_uncounting (f : FrameId) (typ : String) : Uncounting (requestRange f typ) :=
  fun _ => rfl

theorem requestDocument_uncounting (f : FrameId) (link : Link) (location : Location) :
    Uncounting (requestDocument f link location) := by
  refine .get_bind fun s => ?_
  split
  · rfl
  · split
    · exact trivial
    · rfl

theorem registry_uncounting (step : Registry.Step α) : Uncounting (Run.registry step) := by
  intro s
  rw [registry_iff]
  exact After.trivial fun _ _ _ => rfl

/-! ## Expansions -/

theorem addValue_uncounting (body : InlineText) (f : FrameId) : Uncounting (addValue body f) :=
  .get_bind fun _ => rfl

theorem bindDefaults_uncounting (f : FrameId) (ps : List Parameter) (defaults : Table ValueId) :
    Uncounting (bindDefaults f ps defaults) := by
  induction ps generalizing defaults with
  | nil => exact .of_calm (.pure defaults)
  | cons p rest ih =>
    unfold bindDefaults
    split
    · exact ih defaults
    · exact .get_bind fun s => ih _ { s with registry := _ }

theorem registerBlocks_uncounting (scope : ScopeId) (f : FrameId) (blocks : List Block) :
    Uncounting (registerBlocks scope f blocks) :=
  .forM blocks fun block _ => (bindDefaults_uncounting f block.parameters []).bind fun _ =>
    (registry_uncounting _).bind fun _ => .of_calm (.pure _)

/-- The frame of an expansion counts nothing. -/
theorem pushBlock_uncounting (parent : Option FrameId) (document : String) (scope : ScopeId)
    (calls : CallStack) : Uncounting (pushFrame ⟨parent, document, scope, .block calls⟩) := by
  intro s
  rw [pushFrame_iff]
  exact tally_push fun _ => rfl

theorem expandBlock_uncounting (f : FrameId) (entry : BlockEntry) (tag : Option String)
    (location : Location) : Uncounting (expandBlock f entry tag location) := by
  refine .get_bind fun s => ?_
  dsimp only
  rcases s.registry.nextName (s.scopeOf f) (tag.getD (scopeName entry.block.tag))
    tag.isNone with cause | ⟨name, r⟩
  · exact trivial
  rw [After.bind_iff, After.pure_iff]
  dsimp only
  rw [After.bind_iff, After.set_iff]
  cases (s.callStack f).add? entry.block.name location with
  | error cycle => exact trivial
  | ok calls =>
    dsimp only
    rw [After.bind_iff, After.pure_iff, After.bind_iff, After.modify_iff]
    split
    · rw [After.bind_iff, After.modify_iff]
      exact Uncounting.bind (pushBlock_uncounting _ _ _ _) (fun inner =>
        (registerBlocks_uncounting _ inner _).bind fun _ => .of_calm (.pure inner))
        { s with registry := _ }
    · exact trivial

theorem bindParameters_uncounting (caller inner : FrameId) (location : Location)
    (entry : BlockEntry) (arguments : Table InlineText) :
    Uncounting (bindParameters caller inner location entry arguments) := by
  have hset : ∀ name value, Uncounting (setValue inner name value) := fun _ _ _ => rfl
  refine Uncounting.forM _ fun p _ => ?_
  dsimp only
  split
  · exact (addValue_uncounting _ caller).bind (hset p.name)
  · exact hset p.name _
  · exact Uncounting.bind (.of_calm .fail) (hset p.name)

theorem openExpansion_uncounting (f : FrameId) (location : Location) (block : String)
    (tag : Option String) (arguments : Table InlineText) :
    Uncounting (openExpansion f location block tag arguments) := by
  refine Uncounting.bind (.of_calm (Calmly.reading.readLink f location block)) fun link => ?_
  refine .get_bind fun s => Uncounting.bind (.of_calm (Calmly.reading.orFail f ?_ _))
    (fun entry => ?_) s
  · exact not_false
  dsimp only
  split
  · exact fun _ => trivial
  · refine Uncounting.bind (.of_calm (Calmly.reading.expansionTag f location tag)) fun tag => ?_
    exact (expandBlock_uncounting f entry tag location).bind fun inner =>
      (bindParameters_uncounting f inner location entry arguments).bind fun _ => .of_calm (.pure _)

end Run

/-! ## Registered nodes -/

namespace Resolution

/-- An entry has an id. -/
def HasEntry (s : Resolution) (e : EntryId) (id : LabelId) : Prop :=
  ∃ entry, s.registry.entryAt? e = some entry ∧ entry.id = id

theorem HasEntry.keeps {s t : Resolution} {e : EntryId} {id : LabelId} (h : s.HasEntry e id)
    (hk : s.Keeps t) : t.HasEntry e id := by
  obtain ⟨entry, he, rfl⟩ := h
  obtain ⟨entry', he', -, hid⟩ := hk.entry e entry he
  exact ⟨entry', he', hid⟩

/-- Nodes were registered at the visits `vs`: these were counted, and the entries of labeled nodes
have the ids that they are counted under. Which frames count is told from `t`. -/
structure Tallied (t : Resolution) (vs : List Visit) (s s' : Resolution) : Prop where
  tally : s'.tally = vs.foldl t.count s.tally
  counted : t.Counted t.HasEntry s.tally vs

variable {t s s' s'' : Resolution} {vs ws : List Visit} {f : FrameId} {frame : Frame}

theorem Tallied.trans (h : t.Tallied vs s s') (h' : t.Tallied ws s' s'') :
    t.Tallied (vs ++ ws) s s'' where
  tally := by rw [h'.tally, h.tally, List.foldl_append]
  counted := counted_append.2 ⟨h.counted, h.tally ▸ h'.counted⟩

theorem Tallied.cons {v : Visit} (ht : s'.tally = t.count s.tally v)
    (hc : t.CountedAt t.HasEntry s.tally v) (h : t.Tallied vs s' s'') : t.Tallied (v :: vs) s s'' :=
  .trans (⟨ht, hc, trivial⟩ : t.Tallied [v] s s') h

/-- The nodes `nodes` were registered and counted, as any later resolution tells. -/
def Tallies (s s' : Resolution) (f : FrameId) (nodes : List Node) : Prop :=
  ∀ vs, Walk s' f nodes vs → ∀ t, t.Ordered → s'.Keeps t → t.Tallied vs s s'

/-- The next id does not depend on what comes later. -/
theorem Keeps.nextId_eq (h : s.Keeps t) (ho : t.Ordered) (hf : s.frame? f = some frame) (T : Tally)
    (typ : String) : t.nextId T f typ = s.nextId T f typ := by
  unfold nextId
  rw [owner?_of_alike ho h.frame hf]

/-- Neither does the frame that counts a visit. -/
theorem Keeps.count_eq (h : s.Keeps t) (ho : t.Ordered) {v : Visit}
    (hf : s.frame? v.frame = some frame) (T : Tally) : t.count T v = s.count T v := by
  cases v with
  | text | expansion | term => rfl
  | heading g heading entry inner =>
    have hf : s.frame? g = some frame := hf
    unfold count
    dsimp only
    rw [h.options, owner?_of_alike ho h.frame hf, h.nextId_eq ho hf]
  | embedding g key location link =>
    have hf : s.frame? g = some frame := hf
    unfold count
    dsimp only
    rw [h.options, owner?_of_alike ho h.frame hf]

end Resolution

namespace Run

variable {K : Stock} {s : Resolution} {f : FrameId} {frame : Frame}

theorem registerUnder_tally (hs : Fine K s) (f : FrameId) (h : Heading) (id : LabelId)
    (tags : List String × Bool) : After True (registerUnder f h id tags) s fun inner s' =>
      s'.tally = s.tally.put inner id.typ (.below id) ∧
        ∃ entry, s'.HasEntry entry id ∧ s'.state? f h.key = some (.labeled entry inner) := by
  unfold registerUnder
  rw [After.bind_iff]
  refine ((requestRange_quietly f id.typ s hs).and (requestRange_uncounting f id.typ s)).mono
    fun _ s₁ ⟨_, ht₁⟩ => ?_
  rw [After.bind_iff, After.get_iff]
  dsimp only
  rw [After.bind_iff, registry_iff]
  refine (Registry.registerEntry_spec (K := K) _ _ _ _ _).mono fun entry r hr => ?_
  obtain ⟨anchors, hnew⟩ := hr.new
  rw [After.bind_iff]
  refine (registerText_calmly f h.title { s₁ with registry := r }).mono fun _ s₂ h₂ => ?_
  unfold subRangeFrame
  rw [bind_assoc, After.bind_iff, After.get_iff, After.bind_iff, pushFrame_iff, After.bind_iff]
  refine ⟨?_, entry, ⟨_, (congrArg (Registry.entryAt? · entry) h₂.registry).trans hnew, rfl⟩, ?_⟩
  · refine (tally_push_subRange rfl).trans ?_
    rw [h₂.tally]
    exact congrArg (Tally.put · _ _ _) ht₁
  · unfold state?
    rw [stateIn?_setState, if_pos ⟨rfl, rfl⟩]

/-- Registering a labeled node counts it. -/
theorem registerHeading_tally (hs : Fine K s) (f : FrameId) (h : Heading) :
    After True (registerHeading f h) s fun inner s' => ∃ entry,
      s'.tally = s.count s.tally (.heading f h entry inner) ∧
      s'.HasEntry entry (s.nextId s.tally f (h.typeIn s.options)) ∧
      s'.state? f h.key = some (.labeled entry inner) := by
  rw [registerHeading_eq, After.bind_iff, After.get_iff]
  dsimp only
  rw [After.bind_iff]
  refine ((nextId_quietly f _ s hs).and (nextId_spec f _)).mono
    fun ids s₁ ⟨⟨h₁, _⟩, hids, ht₁⟩ => ?_
  rw [After.bind_iff]
  refine ((Quietly.reading.headingTags f h s₁ h₁.fine).and (Calmly.reading.headingTags f h s₁)).mono
    fun tags s₂ ⟨⟨h₂, _⟩, hc₂⟩ => ?_
  refine (registerUnder_tally h₂.fine f h _ tags).mono fun inner s' ⟨ht, entry, he, hst⟩ => ?_
  rw [hids] at ht he
  exact ⟨entry, by rw [ht, hc₂.tally, ht₁]; rfl, he, hst⟩

/-- Registering the nodes counts the visits of their walk. -/
def Tallying (K : Stock) (register : FrameId → List Node → Run Unit) : Prop :=
  ∀ f nodes s frame, Fine K s → s.frame? f = some frame → Node.Fits K nodes →
    s.Free frame.scope (Node.usesAll nodes) →
    After True (register f nodes) s fun _ s' => s.Tallies s' f nodes

variable {enter : FrameId → List Node → Run Unit}

theorem registerLabeled_tallied (hs : Fine K s) (hf : s.frame? f = some frame)
    {heading : Heading} {body : List Node} (hn : Node.Fits K [.labeled heading body])
    (hfree : s.Free frame.scope (Node.uses (.labeled heading body)))
    (he : Registering K enter) (hbody : ∀ inner s₁ frame₁, Fine K s₁ →
      s₁.frame? inner = some frame₁ → Node.Fits K body →
      s₁.Free frame₁.scope (Node.usesAll body) →
      After True (registerNodes enter inner body) s₁ fun _ s' => s₁.Tallies s' inner body) :
    After True (registerNode enter f (.labeled heading body)) s fun _ s' =>
      s.Tallies s' f [.labeled heading body] := by
  have hkey := fits_key hn (k := heading.key) (by simp [Node.uses])
  unfold registerNode
  rw [After.bind_iff]
  refine ((registerHeading_spec hs hf hkey hn.heading hn.title (hfree _ (by simp [Node.uses]))).and
    (registerHeading_tally hs f heading)).mono ?_
  rintro inner s₁ ⟨⟨entry, h₁⟩, entry', ht₁, he₁, hst₁⟩
  cases h₁.holds.state?.symm.trans hst₁
  obtain ⟨frame₁, hi₁, hscope, -⟩ := h₁.frame
  have hfree₁ : s₁.Free frame₁.scope (Node.usesAll body) := by
    rw [hscope]
    exact h₁.free_body hs hf hn hfree
  refine ((registerNodes_spec he body inner s₁ frame₁ h₁.registers.fine hi₁ hn.body hfree₁).and
    (hbody inner s₁ frame₁ h₁.registers.fine hi₁ hn.body hfree₁)).mono ?_
  rintro _ s₂ ⟨⟨_, h₂, -⟩, hall⟩ vs hw t ho hk
  cases hw with
  | labeled _ _ hst _ _ hb hr =>
    cases hr
    cases (h₁.holds.keeps h₂.keeps).unique hst
    rw [List.append_nil]
    have hk₁ : s₁.Keeps t := h₂.keeps.trans hk
    have hk₀ : s.Keeps t := h₁.registers.keeps.trans hk₁
    refine .cons ?_ ?_ (hall _ hb t ho hk)
    · exact ht₁.trans (hk₀.count_eq ho (v := .heading f heading entry inner) hf _).symm
    · change t.HasEntry _ _
      rw [hk₀.options, hk₀.nextId_eq ho hf]
      exact he₁.keeps hk₁

theorem registerEmbedding_tally (f : FrameId) (key : NodeKey) (location : Location)
    (written : String) :
    After True (registerNode enter f (.embedding key location written)) s fun _ s' =>
      s'.tally = s.tally.advance (s.owner? f s.options.sectionType) s.options.sectionType := by
  unfold registerNode registerEmbedding
  rw [After.bind_iff, After.get_iff]
  dsimp only
  rw [After.bind_iff]
  refine (nextId_spec f _).mono fun _ s₁ ⟨_, ht₁⟩ => ?_
  have hrest : Uncounting (do
      requestRange f s.options.sectionType
      let link ← readEmbedding f location written
      requestDocument f link location
      setState f key (.embedding link)) :=
    (requestRange_uncounting f _).bind fun _ =>
      Uncounting.bind (.of_calm (Calmly.reading.readEmbedding f location written)) fun link =>
        (requestDocument_uncounting f link location).bind fun _ =>
          .of_calm (setState_calmly f key _)
  exact (hrest s₁).mono fun _ _ h => h.trans ht₁

theorem registerTerm_uncounting (f : FrameId) (key : NodeKey) (location : Location) (tag : String)
    (text : InlineText) : Uncounting (registerTerm f key location tag text) := by
  refine Uncounting.bind (.of_calm (Calmly.reading.evaluateTag f location tag)) fun evaluated => ?_
  refine .get_bind fun s => (registry_uncounting _).bind (fun _ => ?_) s
  exact .bind (.of_calm (setState_calmly f key _)) fun _ => .of_calm (registerText_calmly f text)

/-- An expansion counts nothing itself. -/
theorem registerExpansion_tallied (he : Registering K enter) (hc : Tallying K enter)
    (hs : Fine K s) (hf : s.frame? f = some frame) {key : NodeKey} {location : Location}
    {block : String} {tag : Option String} {arguments : Table InlineText}
    (hn : Node.Fits K [.expansion key location block tag arguments])
    (hfree : s.Free frame.scope (Node.uses (.expansion key location block tag arguments))) :
    After True (registerNode enter f (.expansion key location block tag arguments)) s fun _ s' =>
      s.Tallies s' f [.expansion key location block tag arguments] := by
  have hkey := fits_key hn (k := key) (by simp [Node.uses])
  have hfree := hfree key (by simp [Node.uses])
  unfold registerNode
  rw [After.bind_iff]
  refine ((openExpansion_spec f location block tag (fun _ _ ha => hn.arguments ha) hs hf).and
    (openExpansion_uncounting f location block tag arguments s)).mono ?_
  rintro ⟨inner, body⟩ s₁ ⟨⟨h₁, hopened, hbody⟩, ht₁⟩
  obtain ⟨frame₁, hf₁, -, -, hscope, -⟩ := h₁.frame f frame hf
  dsimp only
  rw [After.bind_iff]
  refine ((setFixed_spec h₁.fine hf₁ (.expansion inner body) hkey rfl
    (by rw [hscope, h₁.fixed_eq, hfree])).and (setState_calmly f key _ s₁)).mono
      fun _ s₂ ⟨⟨h₂, hholds⟩, hc₂⟩ => ?_
  obtain ⟨fr₁, hi₁, hnew, -⟩ := hopened.frame
  obtain ⟨fr₂, hi₂, -, -, hscope₂, -⟩ := h₂.frame inner fr₁ hi₁
  have hfree₂ : s₂.Free fr₂.scope (Node.usesAll body) := by
    rw [hscope] at h₂
    rw [hscope₂]
    exact h₂.free_opened hs h₁ (scopeOf_eq hf ▸ hs.scope_lt f) hnew
      (scopeOf_eq hi₁ ▸ h₁.fine.scope_lt inner) _
  refine ((he inner body s₂ fr₂ h₂.fine hi₂ hbody hfree₂).and
    (hc inner body s₂ fr₂ h₂.fine hi₂ hbody hfree₂)).mono ?_
  rintro _ s₃ ⟨⟨_, h₃, -⟩, hall⟩ vs hw t ho hk
  cases hw with
  | expansion _ _ _ _ _ _ hst _ hb hr =>
    cases hr
    cases (hholds.keeps h₃.keeps).unique hst
    rw [List.append_nil]
    exact .cons (hc₂.tally.trans ht₁) trivial (hall _ hb t ho hk)

mutual

theorem registerNode_tallied (he : Registering K enter) (hc : Tallying K enter) :
    ∀ (n : Node) f s frame, Fine K s → s.frame? f = some frame → Node.Fits K [n] →
      s.Free frame.scope n.uses →
      After True (registerNode enter f n) s fun _ s' => s.Tallies s' f [n]
  | .text content => by
    intro f s frame _ _ _ _
    unfold registerNode
    refine (registerText_calmly f content s).mono fun _ s' h vs hw t _ _ => ?_
    cases hw with
    | text _ _ hr =>
      cases hr
      exact ⟨h.tally, trivial, trivial⟩
  | .labeled heading body => by
    intro f s frame hs hf hn hfree
    exact registerLabeled_tallied hs hf hn hfree he (registerNodes_tallied he hc body)
  | .embedding key location written => by
    intro f s frame hs hf hn hfree
    refine ((registerNode_spec he (.embedding key location written) f s frame hs hf hn hfree).and
      (registerEmbedding_tally f key location written)).mono ?_
    rintro _ s' ⟨⟨_, h, -⟩, ht⟩ vs hw t ho hk
    cases hw with
    | @embedding _ _ _ _ link _ _ _ _ hr =>
      cases hr
      have hcount := (h.keeps.trans hk).count_eq ho (v := .embedding f key location link) hf s.tally
      exact ⟨ht.trans hcount.symm, trivial, trivial⟩
  | .expansion key location block tag arguments => by
    intro f s frame hs hf hn hfree
    exact registerExpansion_tallied he hc hs hf hn hfree
  | .term key location tag text => by
    intro f s frame _ _ _ _
    unfold registerNode
    refine (registerTerm_uncounting f key location tag text s).mono fun _ s' h vs hw t _ _ => ?_
    cases hw with
    | term _ _ _ _ _ hr =>
      cases hr
      exact ⟨h, trivial, trivial⟩
  | .probe key location questions body => by
    intro f s frame _ _ hn
    simpa [Node.asksAny, Node.asks] using hn.quiet

theorem registerNodes_tallied (he : Registering K enter) (hc : Tallying K enter) :
    ∀ (nodes : List Node) f s frame, Fine K s → s.frame? f = some frame → Node.Fits K nodes →
      s.Free frame.scope (Node.usesAll nodes) →
      After True (registerNodes enter f nodes) s fun _ s' => s.Tallies s' f nodes
  | [] => by
    intro f s frame _ _ _ _ vs hw t _ _
    cases hw
    exact ⟨rfl, trivial⟩
  | n :: rest => by
    intro f s frame hs hf hn hfree
    have hlt : frame.scope.index < s.registry.scopes.size := scopeOf_eq hf ▸ hs.scope_lt f
    have hhead : s.Free frame.scope n.uses := fun k hk => hfree k (List.mem_append_left _ hk)
    unfold registerNodes
    rw [After.bind_iff]
    refine ((registerNode_spec he n f s frame hs hf hn.head hhead).and
      (registerNode_tallied he hc n f s frame hs hf hn.head hhead)).mono ?_
    rintro _ s₁ ⟨⟨vs₁, h₁, hw₁⟩, hall₁⟩
    obtain ⟨frame₁, hf₁, -, -, hscope, -⟩ := h₁.frame f frame hf
    have hfree₁ : s₁.Free frame₁.scope (Node.usesAll rest) := by
      rw [hscope]
      exact h₁.free_rest hlt hn hfree
    refine ((registerNodes_spec he rest f s₁ frame₁ h₁.fine hf₁ hn.tail hfree₁).and
      (registerNodes_tallied he hc rest f s₁ frame₁ h₁.fine hf₁ hn.tail hfree₁)).mono ?_
    rintro _ s₂ ⟨⟨vs₂, h₂, hw₂⟩, hall₂⟩ vs hw t ho hk
    cases hw.unique ((hw₁.keeps h₂.keeps).cons hw₂)
    exact (hall₁ vs₁ hw₁ t ho (h₂.keeps.trans hk)).trans (hall₂ vs₂ hw₂ t ho hk)

end

theorem registerWithin_tallying (fuel : Nat) : Tallying K (registerWithin fuel) := by
  induction fuel with
  | zero =>
    intro f nodes s frame _ _ _ _
    unfold registerWithin
    rw [After.bind_iff, After.get_iff]
    exact trivial
  | succ fuel ih =>
    intro f nodes
    unfold registerWithin
    exact registerNodes_tallied (registering_registerWithin fuel) ih nodes f

end Run

/-! ## Registered documents -/

namespace Resolution

variable {t : Resolution} {d : String} {f g : FrameId} {frame : Frame}

/-- Nothing is counted in the frames of another document. -/
theorem Belongs.advance_eq (h : t.Belongs d f) (hg : t.frame? g = some frame)
    (hd : frame.document ≠ d) (T : Tally) (typ : String) :
    T.advance (t.owner? f typ) typ g = T g := by
  refine T.advance_of_ne (fun howner => ?_) typ
  obtain ⟨⟨owner, frame'⟩, hc, rfl⟩ := Option.map_eq_some_iff.1 howner
  cases hg.symm.trans (countingFrame?_eq_some hc).1
  exact hd (h.countingFrame? hc)

end Resolution

/-- A walk counts in frames of its document only. -/
theorem Walk.foldl_count {t : Resolution} {d : String} {f g : FrameId} {frame : Frame}
    {ns : List Node} {vs : List Visit} (h : Walk t f ns vs) (hf : t.Belongs d f)
    (hg : t.frame? g = some frame) (hd : frame.document ≠ d) (T : Tally) :
    vs.foldl t.count T g = T g := by
  induction h generalizing T with
  | nil => rfl
  | text _ _ _ ih | term _ _ _ _ _ _ ih => exact ih hf T
  | @labeled f h body rest entry inner ws vs _ hi _ _ _ ihb ihr =>
    rw [List.foldl_cons, List.foldl_append, ihr hf, ihb (hf.enter hi)]
    obtain ⟨fr, hfr, hdoc⟩ := (hf.enter hi).frame
    have hne : g ≠ inner := by
      rintro rfl
      cases hg.symm.trans hfr
      exact hd hdoc
    exact (Tally.put_of_ne _ hne _ _).trans (hf.advance_eq hg hd T _)
  | embedding _ _ _ _ _ _ _ ih =>
    rw [List.foldl_cons, ih hf]
    exact hf.advance_eq hg hd T _
  | expansion _ _ _ _ _ _ _ hi _ _ ihb ihr =>
    rw [List.foldl_cons, List.foldl_append, ihr hf, ihb (hf.enter hi)]
    rfl

theorem Run.addDocument_uncounting (d : Document) : Uncounting (addDocument d) := by
  refine .get_bind fun s => ?_
  dsimp only
  rw [After.bind_iff, After.set_iff, After.bind_iff, pushFrame_iff, After.modify_iff]
  exact tally_push fun _ => rfl

namespace Resolution

/-- The entries on the walk of a document have the ids that they are counted under, from nothing on.
Which frames count, and which of them are in the document, is told from `t`. -/
def Numbered (t s : Resolution) (d : String) (info : DocumentInfo) : Prop :=
  ∃ vs T, Walk s info.frame info.document.nodes vs ∧ t.Counted t.HasEntry T vs ∧
    ∀ g frame, t.frame? g = some frame → frame.document = d → ∀ typ, T g typ = {}

theorem Numbered.keeps {t s s' : Resolution} {d : String} {info : DocumentInfo}
    (h : t.Numbered s d info) (hs : s.Keeps s') : t.Numbered s' d info := by
  obtain ⟨vs, T, hw, hrest⟩ := h
  exact ⟨vs, T, hw.keeps hs, hrest⟩

end Resolution

namespace Run

variable {K : Stock}

/-- Some documents are numbered, and nothing is counted yet in the frames of others. -/
def Numbers (pre post : Table DocumentInfo) (s : Resolution) : Prop :=
  ∀ t, t.Ordered → s.Keeps t → (∀ p ∈ pre, t.Numbered s p.1 p.2) ∧
    ∀ p ∈ post, ∀ g frame, t.frame? g = some frame → frame.document = p.1 →
      ∀ typ, s.tally g typ = {}

theorem numbers_step {s₁ s : Resolution} {pre post : Table DocumentInfo} {path : String}
    {info : DocumentInfo} {W : List (String × List Visit)} (depth : Nat)
    (hm : Midway K s₁ pre ((path, info) :: post) W s) (h : Numbers pre ((path, info) :: post) s)
    (hfits : Node.Fits K info.document.nodes) (htop : s.TopFrame path info)
    (hpaths : ∀ p ∈ pre ++ post, p.1 ≠ path) :
    After True (do
      info.document.settings.keys.forM (requestRange info.frame)
      registerWithin depth info.frame info.document.nodes) s fun _ s' =>
        Numbers (pre ++ [(path, info)]) post s' := by
  rw [After.bind_iff]
  refine ((hm.requested htop).and (Uncounting.forM _ (fun typ _ =>
    requestRange_uncounting info.frame typ) s)).mono ?_
  rintro _ s₂ ⟨⟨hq, frame₂, hf₂, -, -, hfree₂⟩, ht₂⟩
  refine ((registering_registerWithin depth info.frame info.document.nodes s₂ frame₂ hq.fine hf₂
    hfits hfree₂).and (registerWithin_tallying depth info.frame info.document.nodes s₂ frame₂
      hq.fine hf₂ hfits hfree₂)).mono ?_
  rintro _ s' ⟨⟨vs, h₃, hw⟩, hall⟩
  have hkeeps : s.Keeps s' := hq.keeps.trans h₃.keeps
  intro t ho hk
  obtain ⟨hpre, hzero⟩ := h t ho (hkeeps.trans hk)
  obtain ⟨htally, hcounted⟩ := hall vs hw t ho hk
  rw [ht₂] at htally hcounted
  refine ⟨fun p hp => ?_, fun p hp g frame hg hd typ => ?_⟩
  · rcases List.mem_append.1 hp with hp | hp
    · exact (hpre p hp).keeps hkeeps
    · cases List.mem_singleton.1 hp
      exact ⟨vs, s.tally, hw, hcounted, hzero _ (by simp)⟩
  · have hother : frame.document ≠ path := hd ▸ hpaths p (List.mem_append_right pre hp)
    rw [htally, (hw.keeps hk).foldl_count (htop.belongs.keeps (hkeeps.trans hk)) hg hother]
    exact hzero p (by simp [hp]) g frame hg hd typ

end Run

/-- Registration numbers the labeled nodes of every document as the tally does. -/
theorem Collection.Described.registerAll_numbered {c : Collection} (h : c.Described) :
    After True (Run.registerAll (c.documents.map Prod.snd)) c.start fun _ s =>
      ∀ t, t.Ordered → s.Keeps t → ∀ d info, s.info? d = some info → t.Numbered s d info := by
  unfold Run.registerAll
  rw [After.bind_iff]
  refine ((Run.addDocuments_spec c h.sorted_paths).and (Run.Uncounting.forM _
    (fun d _ => Run.addDocument_uncounting d) c.start)).mono fun _ s₁ ⟨hk, ht₁⟩ => ?_
  rw [After.bind_iff, After.get_iff]
  dsimp only
  rw [After.bind_iff]
  have hfits : ∀ p ∈ s₁.documents, p.2.document.Fits c.stock := fun p hp => h.fits (hk.mem h hp)
  by_cases hnil : s₁.documents = []
  · rw [hnil]
    intro t _ _ d info hinfo
    simp [info?, hnil] at hinfo
  refine After.mono (Q := fun _ s => Quiet c.stock s₁ s ∧ s.tally = s₁.tally) ?_ ?_
  · refine After.and (After.forM (fun p hp s hs => ?_) (.refl (hk.fine hnil)))
      (Run.Uncounting.forM _ (fun p _ => Run.registerBlocks_uncounting _ _ _) s₁)
    exact (Run.registerBlocks_quietly _ _ _ (fun b hb => (hfits p hp).blocks b hb) s hs.fine).mono
      fun _ _ hs' => hs.trans hs'.1
  rintro _ s₂ ⟨hq, ht₂⟩
  have hzero : ∀ f typ, s₂.tally f typ = {} := fun f typ => by
    rw [ht₂, ht₁]
    simp [tally, frame?, start]
  refine (After.forM_split (J := fun pre post s => (∃ W, Run.Midway c.stock s₁ pre post W s) ∧
    Run.Numbers pre post s) ?_ ⟨⟨[], hk.midway h hq⟩,
      fun _ _ _ => ⟨by simp, fun _ _ g _ _ _ => hzero g⟩⟩).mono ?_
  · rintro pre ⟨path, info⟩ post s hsplit ⟨⟨W, hm⟩, hn⟩
    have hp : (path, info) ∈ s₁.documents := by simp [← hsplit]
    have htop : ∀ p ∈ s₁.documents, s.TopFrame p.1 p.2 := fun p hp =>
      (hk.opened p hp).keeps hm.grows.keeps rfl rfl
    exact (Run.midway_step _ hm (hfits _ hp).nodes (htop _ hp)
      (fun p hp => htop p (by simp [← hsplit, hp])) (hk.scope_ne_of_split hsplit)
      (hk.path_ne_of_split h hsplit) (congrArg DocumentInfo.requests (hk.fresh _ hp))).and
        (Run.numbers_step _ hm hn (hfits _ hp).nodes (htop _ hp) (hk.path_ne_of_split h hsplit))
  · rintro _ s ⟨⟨W, hm⟩, hn⟩ t ho ht d info hinfo
    obtain ⟨info₁, hinfo₁⟩ :=
      Table.mem_keys_iff.1 (hm.grows.keys ▸ Table.mem_keys_iff.2 ⟨info, hinfo⟩)
    obtain ⟨ranges, requests, hinfo'⟩ := hm.grows.info d info₁ hinfo₁
    cases hinfo.symm.trans hinfo'
    exact (hn t ho ht).1 _ (Table.mem_of_lookup hinfo₁)

end Folio
