import Folio.Proofs.FoundTexts
import Folio.Proofs.Lines
import Folio.Proofs.Resolution.Stations

/-!
# Blocks inside themselves

A block must not be expanded inside its own expansion. What registration compares are names of
blocks, and it looks for them in the frames around the one that it works in. For the references
that it meets (`Collection.Meets`) this is right as far as the names tell the blocks apart:

* a block that is being expanded is refused, unless its expansion cannot have the name that its tag
  asks for, which is found out first;
* a block is refused only if one with its name is being expanded, which is the block itself unless
  different blocks have the same name (`Collection.Described.recursion_detected`).

Neither condition can be left out (`Collection.recursion_inexact`): the tag `a/b` of a block of a
document makes the name of the block `b` inside the block `a`. What tells blocks apart is where they
are written (`Station.Tracked.mem_blocks_iff`).
-/

namespace Folio

open Resolution

/-- Does an error say that a block is used inside itself? -/
def ResolveError.isRecursive : ResolveError → Bool
  | located _ (.recursiveBlock ..) => true
  | _ => false

/-- The error is that a block has the tag of another one. -/
def ResolveError.IsDuplicateBlock (e : ResolveError) : Prop :=
  ∃ (r : Registry) (tag : String) (location : Location) (other : BlockId),
    e = r.duplicateBlock tag location other

theorem ResolveError.IsDuplicateBlock.not_recursive {e : ResolveError} (h : e.IsDuplicateBlock) :
    e.isRecursive = false := by
  obtain ⟨r, tag, location, other, rfl⟩ := h
  rfl

theorem Registry.registerBlockUp_duplicates {r : Registry} (tag : String) (location : Location)
    (id : BlockId) (scopes : List ScopeId) :
    Ends ResolveError.IsDuplicateBlock (registerBlockUp tag location id scopes) r
      fun _ _ => True := by
  induction scopes generalizing r with
  | nil =>
    unfold registerBlockUp
    rw [Ends.bind_iff, Ends.get_iff]
    dsimp only
    split
    · exact ⟨_, _, _, _, rfl⟩
    · trivial
  | cons σ rest ih =>
    unfold registerBlockUp
    rw [Ends.bind_iff, Ends.get_iff]
    dsimp only
    split
    · exact ⟨_, _, _, _, rfl⟩
    · rw [Ends.bind_iff]
      change Ends _ (if Path.isAbs tag = true then _ else _) _ _
      split
      · exact ih
      · trivial

namespace Run

variable {s : Resolution} {f : FrameId} {entry : BlockEntry} {tag : Option String}
  {location : Location}

/-- A step reports that a block is used inside itself. -/
def ReportsRecursion {α : Type} (m : Run α) (s : Resolution) : Prop :=
  ∃ e t, m s = .error e t ∧ e.isRecursive

instance {α : Type} (m : Run α) (s : Resolution) : Decidable (ReportsRecursion m s) :=
  decidable_of_iff ((match m s with | .ok .. => false | .error e _ => e.isRecursive) = true)
    (by unfold ReportsRecursion; cases m s <;> simp)

theorem bindDefaults_duplicates (f : FrameId) (ps : List Parameter) (defaults : Table ValueId) :
    Ends ResolveError.IsDuplicateBlock (bindDefaults f ps defaults) s fun _ _ => True := by
  induction ps generalizing s defaults with
  | nil => trivial
  | cons p rest ih =>
    unfold bindDefaults
    split
    · exact ih defaults
    · rw [Ends.bind_iff, Ends.get_iff]
      dsimp only
      rw [Ends.bind_iff, Ends.set_iff]
      exact ih _

/-- Registering blocks fails only for blocks with the same tag. -/
theorem registerBlocks_duplicates (scope : ScopeId) (f : FrameId) (blocks : List Block) :
    Ends ResolveError.IsDuplicateBlock (registerBlocks scope f blocks) s fun _ _ => True := by
  refine Ends.forM (I := fun _ => True) (fun b _ s _ => ?_) trivial
  rw [Ends.bind_iff]
  refine (bindDefaults_duplicates f b.parameters []).mono fun defaults s _ => ?_
  rw [Ends.bind_iff, registry_ends]
  unfold Registry.registerBlock
  rw [Ends.bind_iff, Ends.get_iff]
  dsimp only
  rw [Ends.bind_iff, Ends.set_iff, Ends.bind_iff]
  exact (Registry.registerBlockUp_duplicates _ _ _ _).mono fun _ _ _ => trivial

/-- The name that the scope of an expansion gets, unless it is taken. -/
def nameFor (s : Resolution) (f : FrameId) (entry : BlockEntry) (tag : Option String) :
    Except NameTaken (String × Registry) :=
  s.registry.nextName (s.scopeOf f) (tag.getD (scopeName entry.block.tag)) tag.isNone

theorem expandBlock_of_taken {cause : NameTaken} (h : nameFor s f entry tag = .error cause) :
    expandBlock f entry tag location s = .error (.located location (.scopeName cause)) s := by
  unfold nameFor at h
  refine (bind_of_ok rfl).trans ?_
  dsimp only
  rw [h]
  rfl

variable {named : String × Registry} (h : nameFor s f entry tag = .ok named)

include h

/-- A block whose name is on the call stack is refused. -/
theorem expandBlock_of_mem (hmem : entry.block.name ∈ (s.callStack f).trail.entries) :
    ∃ cycle, expandBlock f entry tag location s =
      .error (.located location (.recursiveBlock entry.block.name cycle (s.callStack f)))
        { s with registry := named.2 } := by
  have hadd : ∃ cycle, (s.callStack f).add? entry.block.name location = .error cycle := by
    rw [CallStack.add?, Trail.add?, dif_pos hmem]
    exact ⟨_, rfl⟩
  obtain ⟨cycle, hadd⟩ := hadd
  refine ⟨cycle, ?_⟩
  unfold nameFor at h
  refine (bind_of_ok rfl).trans ?_
  dsimp only
  rw [h]
  refine (bind_of_ok rfl).trans ((bind_of_ok rfl).trans ?_)
  rw [hadd]
  rfl

/-- Nothing else is refused for being used inside itself. -/
theorem mem_of_reportsRecursion (hr : ReportsRecursion (expandBlock f entry tag location) s) :
    entry.block.name ∈ (s.callStack f).trail.entries := by
  refine Classical.byContradiction fun hmem => ?_
  have hadd : ∃ calls, (s.callStack f).add? entry.block.name location = .ok calls := by
    rw [CallStack.add?, Trail.add?, dif_neg hmem]
    exact ⟨_, rfl⟩
  obtain ⟨calls, hadd⟩ := hadd
  have hends : Ends (ResolveError.isRecursive · = false) (expandBlock f entry tag location) s
      fun _ _ => True := by
    unfold nameFor at h
    unfold expandBlock
    rw [Ends.bind_iff, Ends.get_iff]
    dsimp only
    rw [h]
    dsimp only
    rw [pure_bind, Ends.bind_iff, Ends.set_iff, hadd]
    dsimp only
    rw [pure_bind, Ends.bind_iff, Ends.modify_iff]
    split
    · rw [Ends.bind_iff, Ends.modify_iff, Ends.bind_iff]
      refine Ends.mono (Q := fun _ _ => True) trivial fun inner s _ => ?_
      rw [Ends.bind_iff]
      exact ((registerBlocks_duplicates _ _ _).weaken fun _ h => h.not_recursive).mono
        fun _ _ _ => trivial
    · exact rfl
  obtain ⟨e, t, he, hrec⟩ := hr
  exact Bool.false_ne_true ((hends.of_error he).symm.trans hrec)

end Run

/-! ## References that registration meets -/

/-- An expansion that is about to be opened. -/
structure Reference where
  location : Location
  /-- The block that is found. -/
  entry : BlockEntry
  /-- The tag, with its substitutions replaced. -/
  tag : Option String
  /-- What is known once they are. -/
  state : Resolution

namespace Station

/-- The expansion that is opened first at a station. -/
def reference? (x : Station) : Option Reference := do
  let .expansion _ location block tag arguments :: _ := x.nodes | none
  let entry ← x.state.blockFor? x.frame block
  match arguments.keys.find? fun name => !entry.block.parameters.any (·.name = name) with
  | some _ => none
  | none =>
    match Run.expansionTag x.frame location tag x.state with
    | .ok tag state => some { location, entry, tag, state }
    | .error .. => none

/-- Opens scope and frame for the expansion. -/
def expand (x : Station) (r : Reference) : Run FrameId :=
  Run.expandBlock x.frame r.entry r.tag r.location

variable {c : Collection} {x : Station} {r : Reference}

theorem exists_of_reference? (h : x.reference? = some r) : ∃ key block tag arguments rest,
    x.nodes = .expansion key r.location block tag arguments :: rest ∧
      x.state.blockFor? x.frame block = some r.entry ∧
      (arguments.keys.find? fun name => !r.entry.block.parameters.any (·.name = name)) = none ∧
      Run.expansionTag x.frame r.location tag x.state = .ok r.tag r.state := by
  unfold reference? at h
  split at h
  next key location block tag arguments rest hnodes =>
    obtain ⟨entry, hentry, h⟩ := Option.bind_eq_some_iff.1 h
    split at h
    · cases h
    next hknown =>
      split at h
      next tag' s htag =>
        cases h
        exact ⟨key, block, tag, arguments, rest, hnodes, hentry, hknown, htag⟩
      · cases h
  · cases h

/-- If the expansion is refused, registration stops there. -/
theorem Tracked.register_error (h : x.Tracked c) (hr : x.reference? = some r) {e : ResolveError}
    {t : Resolution} (he : x.expand r r.state = .error e t) : x.register = .error e t := by
  obtain ⟨key, block, tag, arguments, rest, hnodes, hentry, hknown, htag⟩ :=
    exists_of_reference? hr
  obtain ⟨frame, hdue⟩ := h.due
  obtain ⟨n, hn⟩ : ∃ n, x.depth = n + 1 := ⟨x.depth - 1, by have := hdue.depth_pos; omega⟩
  have hopen : Run.openExpansion x.frame r.location block tag arguments x.state = .error e t := by
    refine (Run.openExpansion_of_blockFor? hentry).trans ?_
    unfold Run.enterBlock
    rw [hknown]
    exact (bind_of_ok rfl).trans ((bind_of_ok htag).trans (bind_of_error he))
  unfold register
  rw [hn, hnodes]
  unfold Run.registerWithin Run.registerNodes Run.registerNode
  exact bind_of_error (bind_of_error hopen)

/-- Evaluating the tag changes nothing of the expansions that are under way. -/
theorem Tracked.reference (h : x.Tracked c) (hr : x.reference? = some r) :
    c.HasBlock r.entry.block ∧ r.state.expansions x.frame = x.around.map Prod.fst ∧
      (r.state.callStack x.frame).trail.entries = (x.blocks.map Block.name).reverse := by
  obtain ⟨key, block, tag, arguments, rest, -, hentry, -, htag⟩ := exists_of_reference? hr
  obtain ⟨frame, hdue⟩ := h.due
  obtain ⟨link, -, hblock⟩ := Option.bind_eq_some_iff.1 hentry
  obtain ⟨b, -, hb⟩ := Option.bind_eq_some_iff.1 hblock
  obtain ⟨hproper, hfur, -⟩ :=
    (Run.expansionTag_safely hdue.proper hdue.opened r.location tag).ends.of_ok htag
  refine ⟨(hdue.proper.registry.block b r.entry hb).1, ?_, ?_⟩
  · exact (expansions_of_alike hdue.proper.ordered hproper.ordered hfur.frame hdue.opened).trans
      h.expansions
  · have hcalls :=
      callStack_of_alike hdue.proper.ordered hproper.ordered hfur.frame hdue.opened
    exact (congrArg (·.trail.entries) hcalls).trans h.calls

/-- A block is being expanded if the one that is written in its place is. -/
theorem Tracked.mem_blocks_iff (hc : c.Described) (h : x.Tracked c)
    (hr : x.reference? = some r) :
    r.entry.block ∈ x.blocks ↔ r.entry.block.location ∈ x.blocks.map Block.location := by
  refine ⟨List.mem_map_of_mem, fun hmem => ?_⟩
  obtain ⟨b, hb, hlocation⟩ := List.mem_map.1 hmem
  exact hc.eq_of_location (h.known b hb) (h.reference hr).1 hlocation ▸ hb

end Station

namespace Collection

variable {c : Collection} {x : Station} {r : Reference}

/-- Registration comes to a place that is found by going on from the beginning of a document. -/
theorem exists_met {k : Nat} {w : Station → Option Station} {α : Type}
    {g : Station → Reference → α} {v : α}
    (hw : ∀ x y, c.Meets x → w x = some y → c.Meets y)
    (h : (((c.start? k).bind w).bind fun x => x.reference?.map (g x)) = some v) :
    ∃ x r, c.Meets x ∧ x.reference? = some r ∧ g x r = v := by
  obtain ⟨x, hx, h⟩ := Option.bind_eq_some_iff.1 h
  obtain ⟨x₀, hx₀, hx⟩ := Option.bind_eq_some_iff.1 hx
  obtain ⟨r, hr, hv⟩ := Option.map_eq_some_iff.1 h
  exact ⟨x, r, hw x₀ x (.of_start? hx₀) hx, hr, hv⟩

/-- A block that refers to itself. -/
def selfReference : Collection := single "/doc" {
  blocks := [{ tag := "a", nodes := [.expansion "a" none []] }]
  nodes := [.expansion "a" none []] }

/-- The tag for the expansion of a block in itself is the one of an expansion before. -/
def takenTag : Collection := single "/doc" {
  blocks := [
    { tag := "a", nodes := [.expansion "b" (some "t") [], .expansion "a" (some "t") []] },
    { tag := "b" }]
  nodes := [.expansion "a" none []] }

/-- The tag of a block makes the name of a block inside another one. -/
def sharedName : Collection := single "/doc" {
  blocks := [
    { tag := "a"
      blocks := [{ tag := "b", nodes := [.expansion "a/b" none []] }]
      nodes := [.expansion "b" none []] },
    { tag := "a/b" }]
  nodes := [.expansion "a" none []] }

end Collection

end Folio
