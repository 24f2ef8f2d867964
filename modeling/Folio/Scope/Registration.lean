import Folio.Scope.Lookup

/-!
# Registering names

Labeled nodes, tags and blocks are registered in a scope and handed on along its dynamic parents
to the index of all documents. Each of them has to be new in every place it comes to. If it is
not, the registration fails there, and what was registered before that stays.

Relative tags get the names of the scopes they pass in front, unless they were chosen for the
outside already (`explicit`).
-/

namespace Folio.Registry

/-- A step of registration. -/
abbrev Step := EStateM ResolveError Registry

/-- Adds a scope. -/
def newScope (r : Registry) (name document : String) (parent origin : Option ScopeId) :
    ScopeId × Registry :=
  let fullName := match parent with
    | some p => Path.join (((r.scope? p).map Scope.fullName).getD "") name
    | none => name
  (⟨r.scopes.size⟩, { r with scopes := r.scopes.push { name, fullName, document, parent, origin } })

/-- Adds the scope of a document, which can be addressed from now on. -/
def addDocument (r : Registry) (document : String) : ScopeId × Registry :=
  let (scope, r) := r.newScope "" document none none
  (scope,
    { r with
      index.documents := (document, scope) :: r.index.documents
      index.addresses :=
        (.place document "", ⟨document, "", .document document⟩) :: r.index.addresses })

/-- A name for a scope below another one. An extended name gets a number behind it, any other
name must not have been given before. -/
def nextName (r : Registry) (s : ScopeId) (name : String) (extend : Bool) :
    Except NameTaken (String × Registry) :=
  let count := (((r.scope? s).map Scope.counts).bind (·.lookup name)).getD 0
  if !extend && count ≠ 0 then .error ⟨name⟩
  else
    let r := r.modifyScope s fun sc => { sc with counts := (name, count + 1) :: sc.counts }
    .ok (if extend then name ++ "-" ++ toString (count + 1) else name, r)

/-- Makes a scope known as a child under a name. -/
def addChild (r : Registry) (s : ScopeId) (name : String) (child : ScopeId) :
    Except NameTaken Registry :=
  if (((r.scope? s).map Scope.children).bind (·.lookup name)).isSome then .error ⟨name⟩
  else .ok (r.modifyScope s fun sc => { sc with children := sc.children.put name child })

/-- Where a labeled node was registered. -/
def locationOf (r : Registry) (e : EntryId) : Location :=
  ((r.entryAt? e).map Entry.location).getD {}

/-- Registers a labeled node under its tags in one scope. -/
def registerIn (s : ScopeId) (id : EntryId) (e : Entry) (tags : List String) : Step Unit := do
  let r ← get
  let some sc := r.scope? s | return
  match tags.findSome? fun tag => (sc.anchors.lookup tag).map (tag, ·) with
  | some (tag, other) => throw (.located e.location (.duplicate .anchor tag (r.locationOf other)))
  | none => pure ()
  match sc.ids.lookup e.id with
  | some other => throw (.located e.location (.duplicateId e.id (r.locationOf other)))
  | none => pure ()
  set (r.modifyScope s fun sc =>
    { sc with
      ids := (e.id, id) :: sc.ids
      anchors := (tags.map fun tag => (tag, id)) ++ sc.anchors })

/-- Registers a labeled node in the scopes of a dynamic chain. The answer is its tags as they come
out of the last scope. -/
def registerUp (id : EntryId) (e : Entry) (explicit : Bool) :
    List ScopeId → List String → Step (List String)
  | [], tags => pure tags
  | s :: rest, tags => do
    registerIn s id e tags
    let lifted := match (← get).scope? s with
      | some sc => if explicit then tags else sc.liftAll tags
      | none => tags
    registerUp id e explicit rest lifted

/-- Registers a labeled node under one tag in the index of all documents. Absolute tags must be
new, relative ones replace what was there. -/
def registerAddress (id : EntryId) (e : Entry) (tag : String) : Step Unit := do
  let r ← get
  let link := if Path.isAbs tag then Link.tag tag else .place e.document tag
  match Path.isAbs tag, r.address? link with
  | true, some ⟨_, _, .entry other⟩ =>
    throw (.located e.location (.duplicate .tag tag (r.locationOf other)))
  | _, _ =>
    set { r with
      index.addresses := (link, ⟨e.document, tag, .entry id⟩) :: r.index.addresses }

/-- Registers a labeled node under its tags, the last of which is its id. -/
def registerEntry (s : ScopeId) (e : Entry) (tags : List String) (explicit : Bool) :
    Step EntryId := do
  let r ← get
  let id : EntryId := ⟨r.entries.size⟩
  set { r with entries := r.entries.push e }
  let tags ← registerUp id e explicit (r.dynamicChain s) tags
  tags.forM (registerAddress id e)
  modify fun r =>
    if e.id.typ = r.rootType ∧ (r.root? e.document).isNone then
      { r with index.roots := (e.document, id) :: r.index.roots }
    else r
  modify (·.modifyEntry id fun e => { e with anchors := tags })
  return id

/-- Registers a tag in the scopes of a dynamic chain. The answer is the tag as it comes out of the
last scope, and the document of that scope. -/
def registerTagUp (typ : String) (e : TagEntry) (explicit : Bool) :
    List ScopeId → String → String → Step (String × String)
  | [], document, tag => pure (document, tag)
  | s :: rest, document, tag => do
    let r ← get
    match r.scope? s with
    | none => registerTagUp typ e explicit rest document tag
    | some sc =>
      match sc.tags.lookup (typ, tag) with
      | some first => throw (.located e.location (.duplicate .tag tag first.location))
      | none =>
        set (r.modifyScope s fun sc => { sc with tags := ((typ, tag), e) :: sc.tags })
        registerTagUp typ e explicit rest sc.document (if explicit then tag else sc.lift tag)

/-- Registers a tag of some type. Behind the scopes, a relative tag is known with its document in
front. -/
def registerTag (s : ScopeId) (typ tag : String) (e : TagEntry) (explicit : Bool) :
    Step Unit := do
  let (document, tag) ← registerTagUp typ e explicit ((← get).dynamicChain s) "" tag
  let key := (typ, if Path.isAbs tag then tag else document ++ "#" ++ tag)
  let r ← get
  match r.index.tags.lookup key with
  | some first => throw (.located e.location (.duplicate .tag tag first.location))
  | none => set { r with index.tags := (key, e) :: r.index.tags }

/-- The error for a block whose tag is taken. -/
def duplicateBlock (r : Registry) (tag : String) (location : Location) (other : BlockId) :
    ResolveError :=
  .located location
    (.duplicate .block tag (((r.block? other).map (·.block.location)).getD {}))

/-- Registers a block in the given scopes and the index of all documents. -/
def registerBlockUp (tag : String) (location : Location) (id : BlockId) :
    List ScopeId → Step Unit
  | [] => do
    let r ← get
    match r.index.blocks.lookup tag with
    | some other => throw (r.duplicateBlock tag location other)
    | none => set { r with index.blocks := (tag, id) :: r.index.blocks }
  | s :: rest => do
    let r ← get
    match ((r.scope? s).map Scope.blocks).bind (·.lookup tag) with
    | some other => throw (r.duplicateBlock tag location other)
    | none => set (r.modifyScope s fun sc => { sc with blocks := (tag, id) :: sc.blocks })
    if Path.isAbs tag then registerBlockUp tag location id rest

/-- Registers a block in a scope. Only an absolute tag is handed on. -/
def registerBlock (s : ScopeId) (tag : String) (e : BlockEntry) : Step BlockId := do
  let r ← get
  let id : BlockId := ⟨r.blocks.size⟩
  set { r with blocks := r.blocks.push e }
  registerBlockUp tag e.block.location id (r.dynamicChain s)
  return id

/-- Binds an inline text to a frame. -/
def addValue (r : Registry) (binding : Binding) : ValueId × Registry :=
  (⟨r.values.size⟩, { r with values := r.values.push binding })

/-- Makes a value known under a name in a scope. -/
def setValue (r : Registry) (s : ScopeId) (name : String) (value : ValueId) : Registry :=
  r.modifyScope s fun sc => { sc with values := (name, value) :: sc.values }

end Folio.Registry
