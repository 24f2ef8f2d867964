import Folio.Proofs.Resolution.Opening

/-!
# Names of expansions

The scope of an expansion gets the tag of the block reference as its name, or, without a tag, the
name of the block with a number behind it. Names of both sorts are counted apart. Each sort gives a
name only once, but a tag can be written like a numbered name, and then the next expansion without
a tag is refused for a name that it did not choose.

Nothing else stands in its way: if an expansion without a tag is refused for its name, that is the
tag of another reference in the same scope (`Collection.Described.refused_untagged`). So where no
tag is written like a numbered name, expansions without tags always get a free name.
-/

namespace Folio

open Resolution

/-- The name that a scope cannot get. -/
def ResolveError.takenName? : ResolveError → Option String
  | located _ (.scopeName cause) => some cause.name
  | _ => none

theorem ResolveError.IsDuplicateBlock.takenName?_eq {e : ResolveError} (h : e.IsDuplicateBlock) :
    e.takenName? = none := by
  obtain ⟨r, tag, location, other, rfl⟩ := h
  rfl

namespace Run

/-- The name for a scope that a step is refused. -/
def refusedName? {α : Type} (m : Run α) (s : Resolution) : Option String :=
  match m s with
  | .ok .. => none
  | .error e _ => e.takenName?

theorem refusedName?_of_error {α : Type} {m : Run α} {s t : Resolution} {e : ResolveError}
    (h : m s = .error e t) : refusedName? m s = e.takenName? := by
  rw [refusedName?, h]

theorem refusedName?_of_ends {α : Type} {m : Run α} {s : Resolution}
    {Q : α → Resolution → Prop} (h : Ends (fun e => e.takenName? = none) m s Q) :
    refusedName? m s = none := by
  unfold refusedName?
  cases hm : m s with
  | ok a t => rfl
  | error e t => exact h.of_error hm

theorem refusedName?_bind_of_ok {α β : Type} {m : Run α} {k : α → Run β} {s s' : Resolution} {a : α}
    (h : m s = .ok a s') : refusedName? (m >>= k) s = refusedName? (k a) s' := by
  rw [refusedName?, bind_of_ok h, refusedName?]

variable {s : Resolution} {f : FrameId} {entry : BlockEntry}

/-- A block that is not expanded inside itself is refused for the name that it was given if there is
a scope with that name. -/
theorem refusedName?_of_named {tag : Option String} {name : String} {r : Registry}
    (h : nameFor s f entry tag = .ok (name, r))
    (hmem : entry.block.name ∉ (s.callStack f).trail.entries) (location : Location) :
    refusedName? (expandBlock f entry tag location) s =
      match (r.newScope name (s.documentOf f) (some (s.scopeOf f)) (some entry.scope)).2.addChild
        (s.scopeOf f) name r.freshScope with
      | .ok _ => none
      | .error cause => some cause.name := by
  obtain ⟨calls, hcalls⟩ : ∃ calls, (s.callStack f).add? entry.block.name location = .ok calls := by
    rw [CallStack.add?, Trail.add?, dif_neg hmem]
    exact ⟨_, rfl⟩
  unfold nameFor at h
  refine (refusedName?_bind_of_ok rfl).trans ?_
  dsimp only
  rw [h]
  refine (refusedName?_bind_of_ok rfl).trans ((refusedName?_bind_of_ok rfl).trans ?_)
  rw [hcalls]
  refine (refusedName?_bind_of_ok rfl).trans ((refusedName?_bind_of_ok rfl).trans ?_)
  dsimp only
  have hfresh : (r.newScope name (s.documentOf f) (some (s.scopeOf f)) (some entry.scope)).1 =
      r.freshScope := rfl
  rw [hfresh]
  cases (r.newScope name (s.documentOf f) (some (s.scopeOf f)) (some entry.scope)).2.addChild
    (s.scopeOf f) name r.freshScope with
  | error cause => rfl
  | ok r' =>
    refine refusedName?_of_ends (Q := fun _ _ => True) ?_
    dsimp only
    rw [Ends.bind_iff, Ends.modify_iff, Ends.bind_iff]
    refine Ends.mono (Q := fun _ _ => True) trivial fun inner s _ => ?_
    rw [Ends.bind_iff]
    exact ((registerBlocks_duplicates _ _ _).weaken fun _ h => h.takenName?_eq).mono
      fun _ _ _ => trivial

/-- Without a tag, an expansion gets the next number for the name of its block. It is refused for
that name if a scope has it already, unless it is refused before for being inside itself. -/
theorem refusedName?_untagged {sc : Scope} (hσ : s.registry.scope? (s.scopeOf f) = some sc)
    (location : Location) :
    refusedName? (expandBlock f entry none location) s =
      if entry.block.name ∉ (s.callStack f).trail.entries ∧
          (sc.children.lookup (expansionName s f entry none)).isSome
      then some (expansionName s f entry none) else none := by
  obtain ⟨r, hname, sc', hr, hchildren⟩ : ∃ r,
      nameFor s f entry none = .ok (expansionName s f entry none, r) ∧
        ∃ sc', r.scope? (s.scopeOf f) = some sc' ∧ sc'.children = sc.children := by
    refine ⟨_, rfl, ?_⟩
    rw [Registry.scope?_modifyScope, if_pos rfl, hσ, Option.map_some]
    exact ⟨_, rfl, rfl⟩
  by_cases hmem : entry.block.name ∈ (s.callStack f).trail.entries
  · obtain ⟨cycle, he⟩ : ∃ cycle, expandBlock f entry none location s = .error (.located location
        (.recursiveBlock entry.block.name cycle (s.callStack f))) { s with registry := r } :=
      expandBlock_of_mem hname hmem
    rw [refusedName?_of_error he, if_neg (by simp [hmem])]
    rfl
  · obtain ⟨inner, hgains, -⟩ := r.newScope_gains (expansionName s f entry none) (s.documentOf f)
      (some (s.scopeOf f)) (some entry.scope)
    rw [refusedName?_of_named hname hmem, Registry.addChild, hgains.old hr, Option.map_some,
      Option.bind_some, hchildren]
    cases sc.children.lookup (expansionName s f entry none) <;> simp [hmem]

end Run

namespace Collection

variable {c : Collection} {x : Station} {ref : Reference}

/-- The scope of an expansion without a tag gets a number that no other one has. So a scope that has
its name already was opened for a tag that is written like that. -/
theorem Described.exists_of_taken (hc : c.Described) (hx : c.Meets x)
    (hr : x.reference? = some ref) {sc : Scope} {τ : ScopeId}
    (hσ : ref.state.registry.scope? (ref.state.scopeOf x.frame) = some sc)
    (hτ : sc.children.lookup (Run.expansionName ref.state x.frame ref.entry none) = some τ) :
    ∃ y ref', c.Opens y ref' τ ∧ ref'.state.scopeOf y.frame = ref.state.scopeOf x.frame ∧
      ref'.tag = some (Run.expansionName ref.state x.frame ref.entry none) := by
  have htraced : c.Traced ref.state.registry := by
    rw [(hx.calm hc hr).1.registry]
    exact hc.traced (.registering hx)
  obtain ⟨inner, hinner, hparent, hname⟩ := htraced.child _ sc _ τ hσ hτ
  obtain ⟨y, ref', hyields⟩ := htraced.opened τ inner _ hinner hparent
  refine ⟨y, ref', hyields.opens, hyields.caller, ?_⟩
  have heq := hname.symm.trans hyields.name_eq
  have hcaller := hyields.caller
  cases htag : ref'.tag with
  | some tag =>
    rw [htag] at heq
    exact congrArg some heq.symm
  | none =>
    -- numbers that were given are smaller than the next one
    rw [htag] at heq
    obtain ⟨hbase, hnumber⟩ := Registry.numbered_inj.1 heq
    have hlt := hyields.counted htag
    rw [hcaller] at hnumber
    rw [← hbase] at hlt hnumber
    omega

/-- Of the names that a scope gives, those of one sort are different, and all of them are if no name
is given in both ways. An expansion without a tag gets a number. It is refused for its name, unless
it is refused for being inside itself, if and only if another reference in the same scope has taken
that name with its tag. -/
theorem Described.refused_untagged (hc : c.Described) :
    (∀ (r : Registry) (σ : ScopeId) (requests : List (String × Bool)), (r.scope? σ).isSome →
      (r.nextNames σ requests).Pairwise (fun a b => a.2 = b.2 → a.1 ≠ b.1) ∧
      (((r.nextNames σ requests).map Prod.fst).Nodup ↔ ∀ name,
        ¬((name, false) ∈ r.nextNames σ requests ∧ (name, true) ∈ r.nextNames σ requests))) ∧
    ∀ (x : Station) (ref : Reference), c.Meets x → x.reference? = some ref → ref.tag = none →
      ∀ name, Run.refusedName? (x.expand ref) ref.state = some name ↔
        ref.entry.block.name ∉ (ref.state.callStack x.frame).trail.entries ∧
        name = Run.expansionName ref.state x.frame ref.entry none ∧
        ∃ sc τ y ref', ref.state.registry.scope? (ref.state.scopeOf x.frame) = some sc ∧
          sc.children.lookup name = some τ ∧ c.Opens y ref' τ ∧
          ref'.state.scopeOf y.frame = ref.state.scopeOf x.frame ∧ ref'.tag = some name := by
  refine ⟨fun r σ requests hσ => ⟨Registry.nextNames_pairwise hσ requests,
    Registry.nodup_nextNames_iff hσ requests⟩, fun x ref hx hr htag name => ?_⟩
  obtain ⟨sc, hsc⟩ := hx.exists_caller hc hr
  unfold Station.expand
  rw [htag, Run.refusedName?_untagged hsc]
  constructor
  · intro h
    split at h
    next htaken =>
      obtain rfl := Option.some.inj h
      obtain ⟨τ, hτ⟩ := Option.isSome_iff_exists.1 htaken.2
      obtain ⟨y, ref', hrest⟩ := hc.exists_of_taken hx hr hsc hτ
      exact ⟨htaken.1, rfl, sc, τ, y, ref', hsc, hτ, hrest⟩
    · cases h
  · rintro ⟨hmem, rfl, sc', τ, y, ref', hsc', hτ, -⟩
    cases hsc.symm.trans hsc'
    rw [if_pos ⟨hmem, by simp [hτ]⟩]

/-- A tag is the first numbered name of the block. -/
def takenNumber : Collection := single "/a" {
  blocks := [{ tag := "demo" }]
  nodes := [.expansion "demo" (some "demo-1") [], .expansion "demo" none []] }

theorem exists_refused_takenNumber : ∃ x ref, takenNumber.Meets x ∧ x.reference? = some ref ∧
    ref.tag = none ∧ Run.refusedName? (x.expand ref) ref.state = some "demo-1" := by
  obtain ⟨x, ref, hx, hr, hfacts⟩ := exists_met (c := takenNumber) (k := 0)
    (w := Station.behind?) (g := fun x ref => (ref.tag, Run.refusedName? (x.expand ref) ref.state))
    (v := (none, some "demo-1")) (fun x y hx h => hx.leads (Station.leads_of_behind? h))
    (by decide +kernel)
  obtain ⟨htag, hrefused⟩ := by simpa only [Prod.mk.injEq] using hfacts
  exact ⟨x, ref, hx, hr, htag, hrefused⟩

/-- The reference without a tag is refused for the name that the one before has taken. -/
theorem refused_untagged_takenNumber : takenNumber.Described ∧
    ∃ x ref, takenNumber.Meets x ∧ x.reference? = some ref ∧ ref.tag = none ∧
      Run.refusedName? (x.expand ref) ref.state = some "demo-1" ∧
      ∃ y ref' τ, takenNumber.Opens y ref' τ ∧ ref'.tag = some "demo-1" := by
  have hc : takenNumber.Described := single_described ..
  obtain ⟨x, ref, hx, hr, htag, hrefused⟩ := exists_refused_takenNumber
  obtain ⟨-, -, sc, τ, y, ref', -, -, hopens, -, htaken⟩ :=
    (hc.refused_untagged.2 x ref hx hr htag "demo-1").1 hrefused
  exact ⟨hc, x, ref, hx, hr, htag, hrefused, y, ref', τ, hopens, htaken⟩

/-- Names that a scope gives can be the same, and expansions without tags can be refused for their
names. -/
theorem not_forall_free_names :
    (¬ ∀ (r : Registry) (σ : ScopeId) (requests : List (String × Bool)), (r.scope? σ).isSome →
      ((r.nextNames σ requests).map Prod.fst).Nodup) ∧
    ¬ ∀ c : Collection, c.Described → ∀ x ref, c.Meets x → x.reference? = some ref →
      ref.tag = none → Run.refusedName? (x.expand ref) ref.state = none := by
  constructor
  · intro h
    have hdemo := h (Registry.addDocument { rootType := "section" } "/doc").2 ⟨0⟩
      [("demo", true), ("demo-1", false)] (by decide)
    revert hdemo
    decide +kernel
  · intro h
    obtain ⟨x, ref, hx, hr, htag, hrefused⟩ := exists_refused_takenNumber
    cases hrefused.symm.trans (h takenNumber (single_described ..) x ref hx hr htag)

end Collection

end Folio
