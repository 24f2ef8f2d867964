import Folio.Resolution.Tag

/-!
# Expansions of blocks

Every expansion opens a scope below the one it stands in, and a frame with that scope. Arguments
are bound to the frame of the caller, default arguments to the frame in which the block was
registered. A block must not be expanded inside its own expansion.
-/

namespace Folio.Run

/-- Binds the default arguments of a block to a frame. -/
def bindDefaults (f : FrameId) : List Parameter → Table ValueId → Run (Table ValueId)
  | [], defaults => pure defaults
  | p :: rest, defaults =>
    match p.default with
    | none => bindDefaults f rest defaults
    | some body => do
      let s ← get
      let (value, registry) := s.registry.addValue ⟨body, f⟩
      set { s with registry }
      bindDefaults f rest (defaults.put p.name value)

/-- Registers blocks in a scope, with default arguments bound to a frame. -/
def registerBlocks (scope : ScopeId) (f : FrameId) (blocks : List Block) : Run Unit :=
  blocks.forM fun block => do
    let defaults ← bindDefaults f block.parameters []
    let _ ← registry (Registry.registerBlock scope block.tag { block, scope, defaults })

/-- The name of a block without the slashes that lead a tag. -/
def scopeName (tag : String) : String :=
  String.ofList (tag.toList.dropWhile (· = '/'))

/-- Opens scope and frame for an expansion of a block. Without a tag, the scope is named after the
block and numbered. -/
def expandBlock (f : FrameId) (entry : BlockEntry) (tag : Option String) (location : Location) :
    Run FrameId := do
  let block := entry.block
  let s ← get
  let caller := s.scopeOf f
  let (name, r) ←
    match s.registry.nextName caller (tag.getD (scopeName block.tag)) tag.isNone with
    | .ok named => pure named
    | .error cause => fail location (.scopeName cause)
  set { s with registry := r }
  let outer := s.callStack f
  let calls ←
    match outer.add? block.name location with
    | .ok calls => pure calls
    | .error cycle => fail location (.recursiveBlock block.name cycle outer)
  let document := s.documentOf f
  let (scope, r) := r.newScope name document (some caller) (some entry.scope)
  modify fun s => { s with registry := r }
  match r.addChild caller name scope with
  | .ok registry => modify fun s => { s with registry }
  | .error cause => fail location (.scopeName cause)
  let inner ← pushFrame { parent := some f, document, scope, kind := .block calls }
  registerBlocks scope inner block.blocks
  return inner

/-- Makes a value known under a name in the scope of a frame. -/
def setValue (f : FrameId) (name : String) (value : ValueId) : Run Unit :=
  modify fun s => { s with registry := s.registry.setValue (s.scopeOf f) name value }

/-- Binds a text to a frame. -/
def addValue (body : InlineText) (f : FrameId) : Run ValueId := do
  let s ← get
  let (value, registry) := s.registry.addValue ⟨body, f⟩
  set { s with registry }
  return value

/-- Binds the parameters of a block in the frame of its expansion. -/
def bindParameters (caller inner : FrameId) (location : Location) (entry : BlockEntry)
    (arguments : Table InlineText) : Run Unit :=
  entry.block.parameters.forM fun p => do
    let value ←
      match arguments.lookup p.name, entry.defaults.lookup p.name with
      | some body, _ => addValue body caller
      | none, some value => pure value
      | none, none => fail location (.missingArgument entry.block.name p.name)
    setValue inner p.name value

/-- Opens the expansion of the block that a node refers to. The answer is the frame and the nodes
of the block. -/
def openExpansion (f : FrameId) (location : Location) (block : String) (tag : Option String)
    (arguments : Table InlineText) : Run (FrameId × List Node) := do
  let link ← readLink f location block
  let s ← get
  let entry ← orFail location (.unknownBlock link.text)
    ((s.registry.lookupBlock (s.scopeOf f) link).bind s.registry.block?)
  let known (name : String) : Bool := entry.block.parameters.any (·.name = name)
  match arguments.keys.find? (!known ·) with
  | some name => fail location (.unknownParameter entry.block.name name)
  | none => pure ()
  let tag ← tag.mapM fun tag => do return (← evaluateTag f location tag).1
  let inner ← expandBlock f entry tag location
  bindParameters f inner location entry arguments
  return (inner, entry.block.body)

end Folio.Run
