import Folio.Resolution.Labeling

/-!
# Ranges and labels of documents

A root document and all documents below it share one range for each label type. The first of them
that uses a type opens the range, and only that one may configure its rule and its master. Once
all slots are claimed, labels are bound to them, for a master before the types that follow it.
-/

namespace Folio.Run

/-- The separator and the rule of a new range: as the document configures them, or else as the
options do, or else plain numbers. -/
def newRule (options : Options) (typ : String) (settings : Option TypeSettings) :
    Except DeclarationError (String × LabelRule) := do
  let level := (settings.bind TypeSettings.level).getD 0
  let separator := (settings.map TypeSettings.separator).getD ""
  let (separator, rule) ←
    match settings.bind TypeSettings.rule with
    | some rule => pure (separator, some rule)
    | none =>
      match ← options.defaultRule typ (some level) with
      | some (defaultSeparator, rule) =>
        pure (if separator = "" then defaultSeparator else separator, rule)
      | none => pure (separator, none)
  return (separator,
    match rule with
    | some rule => if rule.level.isNone then rule.withLevel (some level) else rule
    | none => .numbered typ (some level))

/-- Opens the range of a label type for a root document, as the given document configures it. -/
def openRange (root document typ : String) (settings : Option TypeSettings) : Run Unit := do
  let location := (settings.map TypeSettings.location).getD (.document document)
  let s ← get
  let (separator, rule) ←
    match newRule s.options typ settings with
    | .ok rule => pure rule
    | .error cause => fail location (.declaration cause)
  let master := settings.bind TypeSettings.master
  let lead := master.map fun master => Lead.ofMaster master (settings.bind TypeSettings.limit)
  let abbreviation := (settings.map TypeSettings.abbreviation).getD ""
  let (range, numbering) := s.numbering.newRange typ abbreviation lead
  let entry : RangeEntry := { typ, range, master, location }
  set
    { s with
      numbering := numbering.setRule range separator (some rule)
      roots := s.roots.change root (· ++ [entry]) }

/-- Sees to it that there is a range for a label type that a document uses. -/
def provideRange (root document : String) (settings : Settings) (typ : String) : Run Unit := do
  let declared := settings.lookup typ
  if ((← get).rangeFor? root typ).isNone then openRange root document typ declared
  else
    match declared with
    | none => return
    | some info =>
      if root ≠ document && (info.rule.isSome || info.master.isSome) then
        fail info.location (.embeddedRangeConfig typ)

/-- The entry of the master of an entry. -/
def masterEntry (entries : List RangeEntry) (entry : RangeEntry) (master : String) :
    Run RangeEntry :=
  orFail entry.location (.unknownMaster entry.typ master) (entries.find? (·.typ = master))

/-- Goes on to an entry on the way from types to their masters. -/
def followMaster (trail : Trail) (entry : RangeEntry) : Run Trail :=
  match trail.add? entry.typ with
  | .ok trail => pure trail
  | .error cycle => fail entry.location (.masterCycle cycle)

/-- Checks that the masters of an entry exist and form no cycle. `trail` holds the types on the
way, so `fuel` need not exceed the number of entries by more than one. -/
def checkMasters (entries : List RangeEntry) : Nat → Trail → RangeEntry → Run Unit
  | 0, _, entry => fail entry.location .tooDeep
  | fuel + 1, trail, entry => do
    let trail ← followMaster trail entry
    match entry.master with
    | none => return
    | some master => checkMasters entries fuel trail (← masterEntry entries entry master)

/-- Claims the slots of a document and of all documents below it. -/
def claimDocument : Nat → String → Run Unit
  | 0, document => fail (.document document) .tooDeep
  | fuel + 1, document => do
    match (← get).info? document with
    | none => return
    | some info =>
      let root := info.root.getD document
      info.ranges.forM (provideRange root document info.document.settings)
      let entries := ((← get).roots.lookup root).getD []
      entries.forM (checkMasters entries (entries.length + 1) {})
      modify fun s =>
        { s with numbering := s.numbering.setActive (entries.filterMap fun entry =>
            (s.documentRange? document entry.typ).map fun range => (entry.typ, range)) }
      labelWithin ((← get).frames.size + 1) info.frame info.document.nodes
      info.requests.forM fun request =>
        match request.target with
        | some target => claimDocument fuel target
        | none => pure ()

/-- Binds labels to the slots of an entry, and to those of its masters before. The answer is the
types that are done. -/
def bindLabels (entries : List RangeEntry) :
    Nat → Trail → List String → RangeEntry → Run (List String)
  | 0, _, _, entry => fail entry.location .tooDeep
  | fuel + 1, trail, done, entry => do
    if done.contains entry.typ then return done
    let done := entry.typ :: done
    let trail ← followMaster trail entry
    let done ←
      match entry.master with
      | none => pure done
      | some master =>
        bindLabels entries fuel trail done (← masterEntry entries entry master)
    let s ← get
    match s.numbering.createLabels entry.range none with
    | .ok numbering => set { s with numbering }
    | .error cause => fail entry.location (.numbering cause)
    return done

/-- Claims all slots, and binds labels to them. -/
def resolveRanges : Run Unit := do
  let s ← get
  let roots := s.roots.keys
  roots.forM (claimDocument (s.documents.length + 1))
  roots.forM fun root => do
    let entries := ((← get).roots.lookup root).getD []
    let _ ← entries.foldlM (bindLabels entries (entries.length + 1) {}) []

end Folio.Run
