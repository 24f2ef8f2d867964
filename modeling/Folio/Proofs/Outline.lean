import Folio.Proofs.Keys

/-!
# Outlines

An outline consists of sections without tags and of references to other documents. Sections lie in
each other. A reference stands for the top level section of the document it leads to, and
`Outline.Substitutes` puts that section in its place, again and again, until none is left.

`Outline.places` lists where the sections and the references of an outline stand. Both count, since
a reference takes the number of the section that belongs there.
-/

namespace Folio

/-- Nodes that are sections without tags, and references to documents. -/
inductive Outline : List NodeDescription → Prop
  | nil : Outline []
  | heading (title : String) {body rest : List NodeDescription} (hb : Outline body)
    (hr : Outline rest) : Outline (.heading none title body :: rest)
  | embedding (link : String) {path : String} {rest : List NodeDescription}
    (hl : Link.read? false link = .ok (.place path "")) (hr : Outline rest) :
    Outline (.embedding link :: rest)

namespace Outline

mutual

/-- The sections and references in a node with the ordinals `path`, a reference with its link. -/
def placesIn (path : List Nat) : NodeDescription → List (Option String × List Nat)
  | .heading _ _ body => (none, path) :: places path 0 body
  | .embedding link => [(some link, path)]
  | _ => []

/-- The sections and references in nodes that stand behind `count` others below `outer`. -/
def places (outer : List Nat) (count : Nat) :
    List NodeDescription → List (Option String × List Nat)
  | [] => []
  | n :: rest => placesIn (outer ++ [count + 1]) n ++ places outer (count + 1) rest

end

/-- Where the sections of an outline stand. -/
def sections (outer : List Nat) (count : Nat) (ns : List NodeDescription) : List (List Nat) :=
  (places outer count ns).filterMap fun p => if p.1.isNone then some p.2 else none

variable {outer : List Nat} {count : Nat} {rest body : List NodeDescription}

@[simp]
theorem places_nil : places outer count [] = [] := rfl

theorem places_heading (tag : Option String) (title : String) :
    places outer count (.heading tag title body :: rest) = (none, outer ++ [count + 1]) ::
      (places (outer ++ [count + 1]) 0 body ++ places outer (count + 1) rest) := rfl

theorem places_embedding (link : String) : places outer count (.embedding link :: rest) =
    (some link, outer ++ [count + 1]) :: places outer (count + 1) rest := rfl

@[simp]
theorem sections_nil : sections outer count [] = [] := rfl

theorem sections_heading (tag : Option String) (title : String) :
    sections outer count (.heading tag title body :: rest) = (outer ++ [count + 1]) ::
      (sections (outer ++ [count + 1]) 0 body ++ sections outer (count + 1) rest) := by
  simp [sections, places_heading]

/-- Sections stand below a number. -/
theorem exists_snoc_of_mem_places {ns : List NodeDescription} (h : Outline ns)
    {p : Option String × List Nat} (hp : p ∈ places outer count ns) :
    ∃ outer' k, p.2 = outer' ++ [k + 1] := by
  induction h generalizing outer count with
  | nil => simp at hp
  | heading title _ _ ihb ihr =>
    rw [places_heading, List.mem_cons, List.mem_append] at hp
    rcases hp with rfl | hp | hp
    · exact ⟨outer, count, rfl⟩
    · exact ihb hp
    · exact ihr hp
  | embedding link _ _ ih =>
    rw [places_embedding, List.mem_cons] at hp
    rcases hp with rfl | hp
    · exact ⟨outer, count, rfl⟩
    · exact ih hp

/-- The document that a reference in the document `base` leads to. -/
def target? (base link : String) : Option String :=
  match Link.read? false link with
  | .ok link =>
    match link.abs? base false with
    | .ok (.place path _) => some path
    | _ => none
  | .error _ => none

/-- The references in nodes, in their order. -/
def references (ns : List NodeDescription) : List String := (places [] 0 ns).filterMap Prod.fst

/-- A document has a reference to another one. -/
def Embeds (D : Table Description) (base path : String) : Prop :=
  ∃ description, D.lookup base = some description ∧
    ∃ link ∈ references description.nodes, target? base link = some path

/-- Documents that are embedded consist of one section. -/
def Single (D : Table Description) : Prop :=
  ∀ base path description, Embeds D base path → D.lookup path = some description →
    ∃ title body, description.nodes = [.heading none title body]

/-- Which references there are does not depend on where nodes stand. -/
theorem filterMap_fst_places (h : Outline body) (outer : List Nat) (count : Nat) :
    (places outer count body).filterMap Prod.fst = references body := by
  suffices ∀ outer' count', (places outer count body).filterMap Prod.fst =
      (places outer' count' body).filterMap Prod.fst from this [] 0
  induction h generalizing outer count with
  | nil => exact fun _ _ => rfl
  | heading title _ _ ihb ihr =>
    intro outer' count'
    rw [places_heading, places_heading, List.filterMap_cons_none rfl, List.filterMap_cons_none rfl,
      List.filterMap_append, List.filterMap_append, ihb, ihr]
  | embedding link _ _ ih =>
    intro outer' count'
    rw [places_embedding, places_embedding, List.filterMap_cons_some (f := Prod.fst) rfl,
      List.filterMap_cons_some (f := Prod.fst) rfl, ih]

@[simp]
theorem references_nil : references [] = [] := rfl

theorem references_heading (title : String) (hb : Outline body) (hr : Outline rest) :
    references (.heading none title body :: rest) = references body ++ references rest := by
  unfold references
  rw [places_heading, List.filterMap_cons_none rfl, List.filterMap_append,
    filterMap_fst_places hb, filterMap_fst_places hr]
  rfl

theorem references_embedding (link : String) (hr : Outline rest) :
    references (.embedding link :: rest) = link :: references rest := by
  unfold references
  rw [places_embedding, List.filterMap_cons_some (f := Prod.fst) rfl, filterMap_fst_places hr]
  rfl

/-- In the nodes `ns` of the document `base`, each reference is replaced by the top level section
of the document that it leads to, as often as it takes. `origins` says where the sections come
from: from which document, and which one of its sections they are. Those of `base` are counted from
`first` to `next`. -/
inductive Substitutes (D : Table Description) : String → Nat → List NodeDescription →
    List NodeDescription → List (String × Nat) → Nat → Prop
  | nil (base : String) (first : Nat) : Substitutes D base first [] [] [] first
  | heading (base : String) (first : Nat) (title : String) {body rest ms ns : List NodeDescription}
    {os os' : List (String × Nat)} {inner next : Nat}
    (hb : Substitutes D base (first + 1) body ms os inner)
    (hr : Substitutes D base inner rest ns os' next) :
    Substitutes D base first (.heading none title body :: rest) (.heading none title ms :: ns)
      ((base, first) :: (os ++ os')) next
  | embedding (base : String) (first : Nat) (link : String) {path title : String}
    {description : Description} {body rest ms ns : List NodeDescription}
    {os os' : List (String × Nat)} {last next : Nat} (ht : target? base link = some path)
    (hd : D.lookup path = some description) (hn : description.nodes = [.heading none title body])
    (hb : Substitutes D path 1 body ms os last) (hr : Substitutes D base first rest ns os' next) :
    Substitutes D base first (.embedding link :: rest) (.heading none title ms :: ns)
      ((path, 0) :: (os ++ os')) next

theorem read?_of_mem_references {ns : List NodeDescription} (h : Outline ns) {link : String}
    (hl : link ∈ references ns) : ∃ path, Link.read? false link = .ok (.place path "") := by
  induction h with
  | nil => simp at hl
  | heading title hb hr ihb ihr =>
    rw [references_heading title hb hr, List.mem_append] at hl
    exact hl.elim ihb ihr
  | embedding link' hread hr ih =>
    rw [references_embedding link' hr, List.mem_cons] at hl
    rcases hl with rfl | hl
    · exact ⟨_, hread⟩
    · exact ih hl

namespace Substitutes

variable {D : Table Description} {base : String} {first next : Nat} {ms ns : List NodeDescription}
  {os : List (String × Nat)}

/-- No reference is left. -/
theorem outline (h : Substitutes D base first ms ns os next) :
    Outline ns ∧ references ns = [] := by
  induction h with
  | nil => exact ⟨.nil, rfl⟩
  | heading _ _ title _ _ ihb ihr | embedding _ _ _ _ _ _ _ _ ihb ihr =>
    refine ⟨.heading _ ihb.1 ihr.1, ?_⟩
    rw [references_heading _ ihb.1 ihr.1, ihb.2, ihr.2, List.append_nil]

/-- Nodes without references stay as they are. -/
theorem eq_self (h : Substitutes D base first ms ns os next) (ho : Outline ms)
    (hr : references ms = []) : ns = ms ∧ next = first + os.length ∧
      os = (List.range' first os.length).map fun k => (base, k) := by
  induction h with
  | nil => exact ⟨rfl, rfl, rfl⟩
  | heading base first title hb hr' ihb ihr =>
    cases ho with
    | heading _ hob hor =>
    rw [references_heading title hob hor, List.append_eq_nil_iff] at hr
    obtain ⟨rfl, hinner, hos⟩ := ihb hob hr.1
    obtain ⟨rfl, hnext, hos'⟩ := ihr hor hr.2
    subst hinner
    refine ⟨rfl, ?_, ?_⟩
    · rw [hnext, List.length_cons, List.length_append]
      omega
    · rw [List.length_cons, List.length_append, List.range'_succ, List.map_cons, ← List.range'_append_1,
        List.map_append, ← hos, ← hos']
  | embedding =>
    cases ho with
    | embedding _ _ hor =>
    rw [references_embedding _ hor] at hr
    simp at hr

/-- There is one way to replace the references. -/
theorem unique {ns' : List NodeDescription} {os' : List (String × Nat)} {next' : Nat}
    (h : Substitutes D base first ms ns os next) (h' : Substitutes D base first ms ns' os' next') :
    ns = ns' ∧ os = os' ∧ next = next' := by
  induction h generalizing ns' os' next' with
  | nil =>
    cases h'
    exact ⟨rfl, rfl, rfl⟩
  | heading _ _ _ _ _ ihb ihr =>
    cases h' with
    | heading _ _ _ hb hr =>
    obtain ⟨rfl, rfl, rfl⟩ := ihb hb
    obtain ⟨rfl, rfl, rfl⟩ := ihr hr
    exact ⟨rfl, rfl, rfl⟩
  | embedding _ _ _ ht hd hn _ _ ihb ihr =>
    cases h' with
    | embedding _ _ _ ht' hd' hn' hb hr =>
    cases ht.symm.trans ht'
    cases hd.symm.trans hd'
    cases hn.symm.trans hn'
    obtain ⟨rfl, rfl, rfl⟩ := ihb hb
    obtain ⟨rfl, rfl, rfl⟩ := ihr hr
    exact ⟨rfl, rfl, rfl⟩

end Substitutes

end Outline

/-! ## Documents made from outlines -/

/-- The nodes of an outline as they are in a document. -/
inductive Outline.Makes : List NodeDescription → List Node → Prop
  | nil : Makes [] []
  | heading (title : String) {body rest : List NodeDescription} {h : Heading} {ms ns : List Node}
    (htyp : h.typ = none) (hn : h.nested = none) (hb : Makes body ms) (hr : Makes rest ns) :
    Makes (.heading none title body :: rest) (.labeled h ms :: ns)
  | embedding (link : String) (key : NodeKey) (location : Location) {rest : List NodeDescription}
    {ns : List Node} (hr : Makes rest ns) :
    Makes (.embedding link :: rest) (.embedding key location link :: ns)

namespace Document

theorem makes_outline {document : String} {depth : Nat} {ds : List NodeDescription}
    (h : Outline ds) {p p' : Position} {ns : List Node}
    (hm : nodeList document depth ds p = .ok (ns, p')) : Outline.Makes ds ns := by
  induction h generalizing depth p p' ns with
  | nil =>
    cases hm
    exact .nil
  | heading title _ _ ihb ihr =>
    unfold nodeList node at hm
    obtain ⟨n, p₁, hn, hm⟩ := run_bind hm
    obtain ⟨rest, p₂, hr, hm⟩ := run_bind hm
    cases hm
    obtain ⟨location, q₁, -, hn⟩ := run_bind hn
    obtain ⟨key, q₂, -, hn⟩ := run_bind hn
    obtain ⟨title', q₃, -, hn⟩ := run_bind hn
    obtain ⟨body, q₄, hb, hn⟩ := run_bind hn
    cases hn
    exact .heading title rfl rfl (ihb hb) (ihr hr)
  | embedding link _ _ ih =>
    unfold nodeList node at hm
    obtain ⟨n, p₁, hn, hm⟩ := run_bind hm
    obtain ⟨rest, p₂, hr, hm⟩ := run_bind hm
    cases hm
    obtain ⟨location, q₁, -, hn⟩ := run_bind hn
    obtain ⟨key, q₂, -, hn⟩ := run_bind hn
    cases hn
    exact .embedding link key location (ih hr)

/-- The declarations of a description are carried out before its nodes are made. -/
theorem run_of_ofDescription? {path : String} {description : Description} {d : Document}
    (h : ofDescription? path description = .ok d) :
    (∃ p, declarations path [] description.declarations {} = .ok (d.settings, p)) ∧
    ∃ p p', nodeList path 0 description.nodes p = .ok (d.nodes, p') := by
  obtain ⟨p, hp⟩ := exists_of_ofDescription? h
  obtain ⟨settings, p₁, hs, h₁⟩ := run_bind hp
  obtain ⟨blocks, p₂, -, h₂⟩ := run_bind h₁
  obtain ⟨nodes, p₃, hn, h₃⟩ := run_bind h₂
  cases h₃
  exact ⟨⟨p₁, hs⟩, p₂, p, hn⟩

/-- A document without declarations, made from an outline. -/
theorem makes_of_ofDescription? {path : String} {description : Description} {d : Document}
    (h : ofDescription? path description = .ok d) (hd : description.declarations = [])
    (ho : Outline description.nodes) : d.settings = [] ∧ Outline.Makes description.nodes d.nodes := by
  obtain ⟨⟨p, hs⟩, p₁, p₂, hn⟩ := run_of_ofDescription? h
  rw [hd] at hs
  exact ⟨(Prod.mk.inj (Except.ok.inj hs)).1.symm, makes_outline ho hn⟩

end Document

/-- A collection with default options, whose documents were made from the descriptions in a
table. -/
structure Collection.DescribedBy (D : Table Description) (c : Collection) : Prop where
  options : c.options = {}
  sorted : c.documents.keys.Pairwise (· < ·)
  keys : c.documents.keys = D.keys
  made : ∀ path d, (path, d) ∈ c.documents → ∃ description, D.lookup path = some description ∧
    Document.ofDescription? path description = .ok d

namespace Collection.DescribedBy

variable {D : Table Description} {c : Collection}

theorem described (h : c.DescribedBy D) : c.Described where
  sorted := h.sorted
  made path d hd := (h.made path d hd).imp fun _ h => h.2

end Collection.DescribedBy

/-- Documents without declarations whose nodes are outlines. -/
def Outline.Describes (D : Table Description) : Prop :=
  ∀ path description, D.lookup path = some description →
    description.declarations = [] ∧ Outline description.nodes

end Folio
