import Folio.Collection
import Mathlib.Tactic.Lemma

/-!
# The keys of a document

A key names a node, or a part of a text that has to be found later. `Node.uses` lists the keys of a
node in reading order, with what they are used for. `Document.ofDescription?` numbers them one
after the other, so no key is used twice (`Document.uses_nodup`), and a resolution may keep what it
knows about a node under its key.

`Document.Fits` is what the phases need to know of this, for one document and for each block that
it lends to others. It is relative to a `Stock`, the keys that name nodes and the labeled nodes that
were written.
-/

namespace Folio

/-- What a key is used for. -/
inductive Use where
  | node (key : NodeKey)
  | part (key : NodeKey)
  deriving DecidableEq, Repr

def Use.key : Use → NodeKey
  | node key => key
  | part key => key

/-- The key of a part, if it has one. -/
def Part.key? : Part → Option NodeKey
  | .reference key _ _ => some key
  | .value key _ => some key
  | _ => none

/-- The keys of the parts of a text. -/
def InlineText.uses (t : InlineText) : List Use := t.parts.filterMap fun p => p.key?.map Use.part

mutual

/-- The keys of a node in reading order, without those of the blocks it expands. -/
def Node.uses : Node → List Use
  | .text content => content.uses
  | .labeled heading body => .node heading.key :: (heading.title.uses ++ Node.usesAll body)
  | .embedding key _ _ => [.node key]
  | .expansion key _ _ _ arguments => .node key :: arguments.flatMap fun a => a.2.uses
  | .term key _ _ content => .node key :: content.uses
  | .probe key _ _ body => .node key :: Node.usesAll body

/-- The keys of nodes in reading order. -/
def Node.usesAll : List Node → List Use
  | [] => []
  | n :: rest => n.uses ++ Node.usesAll rest

end

mutual

/-- Does a node ask questions? No node of a description does. -/
def Node.asks : Node → Bool
  | .labeled _ body => Node.asksAny body
  | .probe .. => true
  | _ => false

def Node.asksAny : List Node → Bool
  | [] => false
  | n :: rest => n.asks || Node.asksAny rest

end

mutual

/-- The labeled nodes in a node, their bodies put aside. -/
def Node.headings : Node → List Heading
  | .labeled heading body => heading :: Node.headingsAll body
  | .probe _ _ _ body => Node.headingsAll body
  | _ => []

def Node.headingsAll : List Node → List Heading
  | [] => []
  | n :: rest => n.headings ++ Node.headingsAll rest

end

mutual

/-- Does a node set a rule for the nodes inside it? -/
def NodeDescription.ruled : NodeDescription → Bool
  | .heading _ _ body => NodeDescription.ruledAny body
  | .subRange _ _ _ rule body => rule.isSome || NodeDescription.ruledAny body
  | _ => false

def NodeDescription.ruledAny : List NodeDescription → Bool
  | [] => false
  | n :: rest => n.ruled || NodeDescription.ruledAny rest

end

/-- The keys of the default arguments. -/
def Parameter.uses (p : Parameter) : List Use := (p.default.map InlineText.uses).getD []

mutual

/-- The keys of a block in reading order. -/
def Block.uses : Block → List Use
  | ⟨_, _, _, parameters, blocks, body⟩ =>
    parameters.flatMap Parameter.uses ++ Block.usesAll blocks ++ Node.usesAll body

def Block.usesAll : List Block → List Use
  | [] => []
  | b :: rest => b.uses ++ Block.usesAll rest

end

mutual

/-- Does a node in a block or in the blocks inside it ask questions? -/
def Block.asks : Block → Bool
  | ⟨_, _, _, _, blocks, body⟩ => Block.asksAny blocks || Node.asksAny body

def Block.asksAny : List Block → Bool
  | [] => false
  | b :: rest => b.asks || Block.asksAny rest

end

mutual

/-- The labeled nodes in a block and in the blocks inside it. -/
def Block.headings : Block → List Heading
  | ⟨_, _, _, _, blocks, body⟩ => Block.headingsAll blocks ++ Node.headingsAll body

def Block.headingsAll : List Block → List Heading
  | [] => []
  | b :: rest => b.headings ++ Block.headingsAll rest

end

mutual

/-- Does a node in a block set a rule for the nodes inside it? -/
def BlockDescription.ruled : BlockDescription → Bool
  | ⟨_, _, blocks, body⟩ => BlockDescription.ruledAny blocks || NodeDescription.ruledAny body

def BlockDescription.ruledAny : List BlockDescription → Bool
  | [] => false
  | b :: rest => b.ruled || BlockDescription.ruledAny rest

end

/-- Does a node of a document set a rule for the nodes inside it? -/
def Description.ruled (d : Description) : Bool :=
  BlockDescription.ruledAny d.blocks || NodeDescription.ruledAny d.nodes

/-- The labeled nodes that are written in a document. -/
def Document.headings (d : Document) : List Heading :=
  Block.headingsAll d.blocks ++ Node.headingsAll d.nodes

/-- The keys of a document in reading order. -/
def Document.uses (d : Document) : List Use := Block.usesAll d.blocks ++ Node.usesAll d.nodes

/-! ## Numbering the keys -/

/-- The keys are numbered in their order, behind `a` and up to `b`. -/
structure Numbered (document : String) (a b : Nat) (uses : List Use) : Prop where
  le : a ≤ b
  mem : ∀ u ∈ uses, u.key.document = document ∧ a < u.key.number ∧ u.key.number ≤ b
  lt : uses.Pairwise fun u v => u.key.number < v.key.number

namespace Numbered

variable {document : String} {a b c : Nat} {us vs : List Use}

theorem nil (h : a ≤ b) : Numbered document a b [] := ⟨h, by simp, .nil⟩

theorem single {u : Use} (hd : u.key.document = document) (hn : u.key.number = a + 1) :
    Numbered document a (a + 1) [u] :=
  ⟨by omega, by simp [hd, hn], by simp⟩

theorem append (h : Numbered document a b us) (h' : Numbered document b c vs) :
    Numbered document a c (us ++ vs) := by
  refine ⟨Nat.le_trans h.le h'.le, fun u hu => ?_, List.pairwise_append.2 ⟨h.lt, h'.lt, ?_⟩⟩
  · rcases List.mem_append.1 hu with hu | hu
    · have hle := h'.le
      obtain ⟨hd, hlt, hn⟩ := h.mem u hu
      exact ⟨hd, hlt, by omega⟩
    · have hle := h.le
      obtain ⟨hd, hlt, hn⟩ := h'.mem u hu
      exact ⟨hd, by omega, hn⟩
  · intro u hu v hv
    have := h.mem u hu
    have := h'.mem v hv
    omega

theorem nodup (h : Numbered document a b us) : us.Nodup :=
  h.lt.imp fun hlt heq => by simp [heq] at hlt

/-- A number belongs to one key only. -/
theorem eq_of_number_eq (h : Numbered document a b us) {u v : Use} (hu : u ∈ us) (hv : v ∈ us)
    (hn : u.key.number = v.key.number) : u = v := by
  obtain ⟨-, -, hlt⟩ := h
  induction us with
  | nil => cases hu
  | cons w us ih =>
    obtain ⟨hw, hlt⟩ := List.pairwise_cons.1 hlt
    rcases List.mem_cons.1 hu with rfl | hu' <;> rcases List.mem_cons.1 hv with rfl | hv'
    · rfl
    · exact absurd hn (Nat.ne_of_lt (hw v hv'))
    · exact absurd hn (Nat.ne_of_gt (hw u hu'))
    · exact ih hu' hv' hlt

end Numbered

theorem Document.run_bind {α β : Type} {m : Document.Making α} {f : α → Document.Making β}
    {p p'' : Document.Position} {b : β} (h : (m >>= f) p = .ok (b, p'')) :
    ∃ a p', m p = .ok (a, p') ∧ f a p' = .ok (b, p'') := by
  change (m p >>= fun x => f x.1 x.2) = _ at h
  cases hm : m p with
  | error e => simp [hm, Bind.bind, Except.bind] at h
  | ok x =>
    rw [hm] at h
    exact ⟨x.1, x.2, rfl, h⟩

/-- What `m` makes has numbered keys, for which `R` holds. -/
def Makes {α : Type} (document : String) (m : Document.Making α) (R : α → List Use → Prop) : Prop :=
  ∀ p a p', m p = .ok (a, p') → ∃ us, Numbered document p.nodes p'.nodes us ∧ R a us

namespace Makes

variable {α β : Type} {document : String} {R : α → List Use → Prop} {R' : β → List Use → Prop}

theorem pure {a : α} (h : R a []) : Makes document (Pure.pure a) R := by
  intro p b p' hp
  cases hp
  exact ⟨[], .nil (Nat.le_refl _), h⟩

theorem bind {m : Document.Making α} {f : α → Document.Making β} (hm : Makes document m R)
    (hf : ∀ a us, R a us → Makes document (f a) fun b vs => R' b (us ++ vs)) :
    Makes document (m >>= f) R' := by
  intro p b p'' hp
  obtain ⟨a, p', hmp, hp⟩ := Document.run_bind hp
  obtain ⟨us, hus, ha⟩ := hm p a p' hmp
  obtain ⟨vs, hvs, hb⟩ := hf a us ha p' b p'' hp
  exact ⟨us ++ vs, hus.append hvs, hb⟩

theorem throw {e : ResolveError} : Makes document (MonadExcept.throw e) R :=
  fun _ _ _ hp => by cases hp

theorem map {m : Document.Making α} {f : α → β} (hm : Makes document m fun a us => R' (f a) us) :
    Makes document (f <$> m) R' := by
  rw [map_eq_pure_bind]
  exact hm.bind fun a us ha => .pure (by simpa using ha)

theorem mono {m : Document.Making α} {S : α → List Use → Prop} (hm : Makes document m R)
    (h : ∀ a us, R a us → S a us) : Makes document m S := fun p a p' hp =>
  let ⟨us, hus, ha⟩ := hm p a p' hp
  ⟨us, hus, h a us ha⟩

/-- Reading a list of things one after the other. -/
theorem mapM {m : α → Document.Making β} {U : β → List Use} (xs : List α)
    (hm : ∀ x, Makes document (m x) fun b us => us = U b) :
    Makes document (xs.mapM m) fun bs us => us = bs.flatMap U := by
  induction xs with
  | nil => exact .pure rfl
  | cons x xs ih =>
    rw [List.mapM_cons]
    refine (hm x).bind fun b us hb => ih.bind fun bs vs hbs => .pure ?_
    simp [hb, hbs]

/-- Reading something that may be absent. -/
theorem mapM_option {m : α → Document.Making β} {U : β → List Use} (x : Option α)
    (hm : ∀ x, Makes document (m x) fun b us => us = U b) :
    Makes document (x.mapM m) fun b us => us = (b.map U).getD [] ∧ (x = none → b = none) := by
  cases x with
  | none => exact .pure ⟨rfl, fun _ => rfl⟩
  | some x => exact ((hm x).mono fun _ _ h => ⟨h, by simp⟩).map

end Makes

namespace Document

variable {document : String}

theorem makes_nextLocation (depth : Nat) :
    Makes document (nextLocation document depth) fun _ us => us = [] := by
  intro p a p' hp
  cases hp
  exact ⟨[], .nil (Nat.le_refl _), rfl⟩

theorem makes_nextKey : Makes document (nextKey document) fun key us => us = [.node key] := by
  intro p a p' hp
  cases hp
  exact ⟨_, .single rfl rfl, rfl⟩

/-- A part has the key it was read with, or none. -/
theorem part_key?_of_part? {key : NodeKey} {t : Inline.Token} {part : Part}
    (h : t.part? key = .ok part) : part.key? = none ∨ part.key? = some key := by
  cases t with
  | text cs =>
    cases h
    exact .inl rfl
  | directive content =>
    change Inline.directive? key content = .ok part at h
    unfold Inline.directive? at h
    split at h
    · cases h
    · cases h
    · split at h
      · cases h
        exact .inr rfl
      split at h
      · cases h
        exact .inr rfl
      split at h
      · cases h
        exact .inr rfl
      split at h
      · cases h
        exact .inl rfl
      split at h
      · cases h
        exact .inl rfl
      · cases h
    · cases h

theorem numbered_parts {ts : List Inline.Token} {a : Nat} {parts : List Part}
    (h : Inline.parts? document (a + 1) ts = .ok parts) :
    Numbered document a (a + parts.length)
      (parts.filterMap fun p => p.key?.map Use.part) := by
  induction ts generalizing a parts with
  | nil =>
    cases h
    exact .nil (Nat.le_refl _)
  | cons t ts ih =>
    obtain ⟨part, rest, hpart, hrest, rfl⟩ := Inline.parts?_cons_eq_ok_iff.1 h
    have hback := ih hrest
    rw [List.length_cons, show a + (rest.length + 1) = a + 1 + rest.length by omega]
    rcases part_key?_of_part? hpart with hk | hk
    · rw [List.filterMap_cons_none (by simp [hk])]
      exact (Numbered.nil (Nat.le_succ a)).append hback
    · rw [List.filterMap_cons_some (b := Use.part ⟨document, a + 1⟩) (by simp [hk])]
      exact (Numbered.single (u := .part ⟨document, a + 1⟩) rfl rfl).append hback

theorem makes_inlineText (location : Location) (text : String) :
    Makes document (inlineText document location text) fun t us => us = t.uses := by
  intro p t p' hp
  have heq : inlineText document location text p =
      (InlineText.read? document (p.nodes + 1) location text).map fun content =>
        (content, { p with nodes := p.nodes + content.parts.length }) := by
    change Except.bind (Except.bind (InlineText.read? document (p.nodes + 1) location text) _) _ = _
    cases InlineText.read? document (p.nodes + 1) location text <;> rfl
  rw [heq] at hp
  unfold InlineText.read? at hp
  cases hr : Inline.parts? document (p.nodes + 1) (Inline.tokens text) with
  | error e => simp [hr, Except.map] at hp
  | ok parts =>
    simp only [hr, Except.map, Except.ok.injEq, Prod.mk.injEq] at hp
    obtain ⟨rfl, rfl⟩ := hp
    exact ⟨_, numbered_parts hr, rfl⟩

theorem makes_nestedRule (location : Location) (typ text : String) :
    Makes document (nestedRule location typ text) fun _ us => us = [] := by
  unfold nestedRule
  split
  · exact .pure rfl
  · exact .throw

mutual

theorem makes_node (depth : Nat) : ∀ n : NodeDescription,
    Makes document (node document depth n) fun m us => us = m.uses ∧ m.asks = false ∧
      (n.ruled = false → ∀ h ∈ m.headings, h.nested = none)
  | .text text => by
    unfold node
    refine (makes_nextLocation depth).bind fun location _ h => ?_
    refine (makes_inlineText location text).bind fun content _ h' => .pure ?_
    simp [h, h', Node.uses, Node.asks, Node.headings]
  | .heading tag title body => by
    unfold node
    refine (makes_nextLocation depth).bind fun location _ h => ?_
    refine makes_nextKey.bind fun key _ hk => ?_
    refine (makes_inlineText location title).bind fun title _ ht => ?_
    refine (makes_nodeList (depth + 1) body).bind fun body _ ⟨hu, ha, hb⟩ => .pure ?_
    refine ⟨by simp [h, hk, ht, hu, Node.uses], ha, fun hr heading hm => ?_⟩
    rcases List.mem_cons.1 hm with rfl | hm
    · rfl
    · exact hb hr heading hm
  | .subRange typ tag title rule body => by
    unfold node
    refine (makes_nextLocation depth).bind fun location _ h => ?_
    refine makes_nextKey.bind fun key _ hk => ?_
    split
    · exact Makes.throw.bind (R := fun _ _ => False) fun _ _ hf => hf.elim
    refine (makes_inlineText location title).bind fun title _ ht => ?_
    refine (makes_nodeList (depth + 1) body).bind fun body _ ⟨hu, ha, hb⟩ => ?_
    refine (Makes.mapM_option (U := fun _ => []) rule fun r =>
      makes_nestedRule location typ r).bind fun nested _ ⟨hn, hnone⟩ => .pure ?_
    refine ⟨by cases nested <;> simp_all [Node.uses], ha, fun hr heading hm => ?_⟩
    rw [NodeDescription.ruled, Bool.or_eq_false_iff] at hr
    rcases List.mem_cons.1 hm with rfl | hm
    · exact hnone (by simpa using hr.1)
    · exact hb hr.2 heading hm
  | .embedding link => by
    unfold node
    refine (makes_nextLocation depth).bind fun location _ h => ?_
    refine makes_nextKey.bind fun key _ hk => .pure ?_
    simp [h, hk, Node.uses, Node.asks, Node.headings]
  | .expansion block tag arguments => by
    unfold node
    refine (makes_nextLocation depth).bind fun location _ h => ?_
    refine makes_nextKey.bind fun key _ hk => ?_
    refine (Makes.mapM (U := fun a : String × InlineText => a.2.uses) arguments
      fun a => ?_).bind fun arguments _ ha => .pure ?_
    · obtain ⟨name, text⟩ := a
      exact (makes_inlineText location text).bind fun content _ hc => .pure (by simpa using hc)
    · simp [h, hk, ha, Node.uses, Node.asks, Node.headings]
  | .term tag text => by
    unfold node
    refine (makes_nextLocation depth).bind fun location _ h => ?_
    refine makes_nextKey.bind fun key _ hk => ?_
    refine (makes_inlineText location text).bind fun content _ hc => .pure ?_
    simp [h, hk, hc, Node.uses, Node.asks, Node.headings]

theorem makes_nodeList (depth : Nat) : ∀ ns : List NodeDescription,
    Makes document (nodeList document depth ns) fun ms us =>
      us = Node.usesAll ms ∧ Node.asksAny ms = false ∧
        (NodeDescription.ruledAny ns = false → ∀ h ∈ Node.headingsAll ms, h.nested = none)
  | [] => .pure ⟨rfl, rfl, fun _ => by simp [Node.headingsAll]⟩
  | n :: rest => by
    unfold nodeList
    refine (makes_node depth n).bind fun n _ ⟨hu, ha, hn⟩ => ?_
    refine (makes_nodeList depth rest).bind fun rest _ ⟨hu', ha', hr⟩ => .pure ?_
    refine ⟨by simp [hu, hu', Node.usesAll], by simp [ha, ha', Node.asksAny], fun h heading hm => ?_⟩
    rw [NodeDescription.ruledAny, Bool.or_eq_false_iff] at h
    exact (List.mem_append.1 hm).elim (hn h.1 heading) (hr h.2 heading)

end

mutual

theorem makes_block (depth : Nat) (outer : String) : ∀ b : BlockDescription,
    Makes document (block document depth outer b) fun c us => us = c.uses ∧ c.asks = false ∧
      (b.ruled = false → ∀ h ∈ c.headings, h.nested = none)
  | ⟨tag, parameters, blocks, body⟩ => by
    unfold block
    refine (makes_nextLocation depth).bind fun location _ h => ?_
    refine (Makes.mapM (U := Parameter.uses) parameters fun p => ?_).bind fun parameters _ hp => ?_
    · exact (Makes.mapM_option (U := InlineText.uses) p.default
        (makes_inlineText location)).bind fun d _ hd => .pure (by simpa [Parameter.uses] using hd.1)
    refine (makes_blockList (depth + 1) _ blocks).bind fun blocks _ ⟨hu, ha, hb⟩ => ?_
    refine (makes_nodeList (depth + 1) body).bind fun body _ ⟨hu', ha', hn⟩ => .pure ?_
    refine ⟨by simp [h, hp, hu, hu', Block.uses], by simp [ha, ha', Block.asks],
      fun h heading hm => ?_⟩
    rw [BlockDescription.ruled, Bool.or_eq_false_iff] at h
    exact (List.mem_append.1 hm).elim (hb h.1 heading) (hn h.2 heading)

theorem makes_blockList (depth : Nat) (outer : String) : ∀ bs : List BlockDescription,
    Makes document (blockList document depth outer bs) fun cs us =>
      us = Block.usesAll cs ∧ Block.asksAny cs = false ∧
        (BlockDescription.ruledAny bs = false → ∀ h ∈ Block.headingsAll cs, h.nested = none)
  | [] => .pure ⟨rfl, rfl, fun _ => by simp [Block.headingsAll]⟩
  | b :: rest => by
    unfold blockList
    refine (makes_block depth outer b).bind fun b _ ⟨hu, ha, hb⟩ => ?_
    refine (makes_blockList depth outer rest).bind fun rest _ ⟨hu', ha', hr⟩ => .pure ?_
    refine ⟨by simp [hu, hu', Block.usesAll], by simp [ha, ha', Block.asksAny],
      fun h heading hm => ?_⟩
    rw [BlockDescription.ruledAny, Bool.or_eq_false_iff] at h
    exact (List.mem_append.1 hm).elim (hb h.1 heading) (hr h.2 heading)

end

theorem makes_declarations (texts : List String) (settings : Settings) :
    Makes document (declarations document settings texts) fun _ us => us = [] := by
  induction texts generalizing settings with
  | nil => exact .pure rfl
  | cons text rest ih =>
    unfold declarations
    refine (makes_nextLocation 0).bind fun location _ h => ?_
    split
    · exact (ih _).mono fun _ _ hu => by simp [h, hu]
    · exact .throw

/-- Making the document at a path. -/
def making (path : String) (description : Description) : Making Document := do
  let settings ← declarations path [] description.declarations
  let blocks ← blockList path 0 (path ++ "#") description.blocks
  let nodes ← nodeList path 0 description.nodes
  return { path, template := description.template, settings, blocks, nodes }

theorem makes_making (path : String) (description : Description) :
    Makes path (making path description) fun d us => d.path = path ∧ us = d.uses ∧
      Block.asksAny d.blocks = false ∧ Node.asksAny d.nodes = false ∧
      (description.ruled = false → ∀ h ∈ d.headings, h.nested = none) := by
  refine (makes_declarations _ _).bind fun settings _ hs => ?_
  refine (makes_blockList 0 _ _).bind fun blocks _ ⟨hu, ha, hb⟩ => ?_
  refine (makes_nodeList 0 _).bind fun nodes _ ⟨hu', ha', hn⟩ => .pure ?_
  refine ⟨rfl, by simp [hs, hu, hu', Document.uses], ha, ha', fun h heading hm => ?_⟩
  rw [Description.ruled, Bool.or_eq_false_iff] at h
  exact (List.mem_append.1 hm).elim (hb h.1 heading) (hn h.2 heading)

theorem exists_of_ofDescription? {path : String} {description : Description} {d : Document}
    (h : ofDescription? path description = .ok d) :
    ∃ p, making path description {} = .ok (d, p) := by
  have heq : ofDescription? path description = ((making path description).run {}).map Prod.fst :=
    rfl
  rw [heq] at h
  cases hr : (making path description).run {} with
  | error e => simp [hr, Except.map] at h
  | ok x =>
    obtain ⟨d', p⟩ := x
    simp only [hr, Except.map, Except.ok.injEq] at h
    subst h
    exact ⟨p, hr⟩

/-- The keys of a document are numbered from 1 on, no node asks a question, and nodes set the rules
that are written for them. -/
theorem numbered_of_ofDescription? {path : String} {description : Description} {d : Document}
    (h : ofDescription? path description = .ok d) :
    d.path = path ∧ (∃ n, Numbered path 0 n d.uses) ∧ Block.asksAny d.blocks = false ∧
      Node.asksAny d.nodes = false ∧
      (description.ruled = false → ∀ h ∈ d.headings, h.nested = none) := by
  obtain ⟨p, hp⟩ := exists_of_ofDescription? h
  obtain ⟨us, hus, hpath, rfl, hrest⟩ := makes_making path description _ _ _ hp
  exact ⟨hpath, ⟨_, hus⟩, hrest⟩

end Document

/-! ## Fitting keys -/

/-- The keys that name nodes, and the labeled nodes that were written. -/
structure Stock where
  key : NodeKey → Prop
  heading : Heading → Prop

/-- Keys are used once, and those that name nodes are in `K` while the others are not. -/
structure Use.Fit (K : NodeKey → Prop) (us : List Use) : Prop where
  node : ∀ k, .node k ∈ us → K k
  part : ∀ k, .part k ∈ us → ¬K k
  nodup : us.Nodup

namespace Use.Fit

variable {K : NodeKey → Prop} {us vs : List Use}

theorem sublist (h : Use.Fit K vs) (hs : us.Sublist vs) : Use.Fit K us :=
  ⟨fun k hk => h.node k (hs.subset hk), fun k hk => h.part k (hs.subset hk), h.nodup.sublist hs⟩

theorem left (h : Use.Fit K (us ++ vs)) : Use.Fit K us := h.sublist (List.sublist_append_left ..)

theorem right (h : Use.Fit K (us ++ vs)) : Use.Fit K vs := h.sublist (List.sublist_append_right ..)

end Use.Fit

variable {K : Stock}

/-- The keys of a text name no nodes. -/
def InlineText.Fits (K : Stock) (t : InlineText) : Prop := ∀ k, .part k ∈ t.uses → ¬K.key k

/-- Nodes that were written, whose keys fit and that ask no questions. -/
structure Node.Fits (K : Stock) (ns : List Node) : Prop where
  fit : Use.Fit K.key (Node.usesAll ns)
  quiet : Node.asksAny ns = false
  written : ∀ h ∈ Node.headingsAll ns, K.heading h

namespace Node.Fits

variable {n : Node} {ns : List Node}

theorem head (h : Node.Fits K (n :: ns)) : Node.Fits K [n] := by
  refine ⟨?_, ?_, fun heading hm => h.written heading ?_⟩
  · simpa [Node.usesAll] using h.fit.left
  · have := h.quiet
    simp_all [Node.asksAny]
  · have hm : heading ∈ n.headings := by simpa [Node.headingsAll] using hm
    exact List.mem_append_left _ hm

theorem tail (h : Node.Fits K (n :: ns)) : Node.Fits K ns := by
  refine ⟨h.fit.right, ?_, fun heading hm => h.written heading (List.mem_append_right _ hm)⟩
  have := h.quiet
  simp_all [Node.asksAny]

theorem heading {heading : Heading} {body : List Node} (h : Node.Fits K [.labeled heading body]) :
    K.heading heading := h.written heading (by simp [Node.headingsAll, Node.headings])

theorem body {heading : Heading} {body : List Node} (h : Node.Fits K [.labeled heading body]) :
    Node.Fits K body := by
  have hf : Use.Fit K.key (.node heading.key :: (heading.title.uses ++ Node.usesAll body)) := by
    simpa [Node.usesAll, Node.uses] using h.fit
  refine ⟨(hf.sublist (List.sublist_cons_self _ _)).right, ?_, fun other hm => h.written other ?_⟩
  · simpa [Node.asksAny, Node.asks] using h.quiet
  · simp [Node.headingsAll, Node.headings, hm]

theorem title {heading : Heading} {body : List Node} (h : Node.Fits K [.labeled heading body]) :
    heading.title.Fits K := by
  have hf : Use.Fit K.key (.node heading.key :: (heading.title.uses ++ Node.usesAll body)) := by
    simpa [Node.usesAll, Node.uses] using h.fit
  exact (hf.sublist (List.sublist_cons_self _ _)).left.part

theorem arguments {key : NodeKey} {location : Location} {block : String} {tag : Option String}
    {arguments : Table InlineText}
    (h : Node.Fits K [.expansion key location block tag arguments]) {name : String}
    {text : InlineText} (ha : (name, text) ∈ arguments) : text.Fits K := by
  intro k hk
  refine h.fit.part k ?_
  simp only [Node.usesAll, Node.uses, List.append_nil, List.mem_cons, List.mem_flatMap]
  exact .inr ⟨_, ha, hk⟩

end Node.Fits

/-- Blocks whose nodes were written, whose keys fit and whose nodes ask no questions. -/
structure Block.Fits (K : Stock) (b : Block) : Prop where
  fit : Use.Fit K.key b.uses
  quiet : b.asks = false
  written : ∀ h ∈ b.headings, K.heading h

namespace Block.Fits

variable {b : Block}

theorem of_mem {bs : List Block} (h : Use.Fit K.key (Block.usesAll bs))
    (hq : Block.asksAny bs = false) (hw : ∀ h ∈ Block.headingsAll bs, K.heading h) (hb : b ∈ bs) :
    b.Fits K := by
  induction bs with
  | nil => cases hb
  | cons c bs ih =>
    simp only [Block.asksAny, Bool.or_eq_false_iff] at hq
    rcases List.mem_cons.1 hb with rfl | hb
    · exact ⟨h.left, hq.1, fun heading hm => hw heading (List.mem_append_left _ hm)⟩
    · exact ih h.right hq.2 (fun heading hm => hw heading (List.mem_append_right _ hm)) hb

theorem uses_eq (b : Block) : b.uses =
    b.parameters.flatMap Parameter.uses ++ Block.usesAll b.blocks ++ Node.usesAll b.body := by
  cases b
  rw [Block.uses]

theorem asks_eq (b : Block) : b.asks = (Block.asksAny b.blocks || Node.asksAny b.body) := by
  cases b
  rw [Block.asks]

theorem headings_eq (b : Block) :
    b.headings = Block.headingsAll b.blocks ++ Node.headingsAll b.body := by
  cases b
  rw [Block.headings]

theorem body (h : b.Fits K) : Node.Fits K b.body := by
  have hf := h.fit
  have hq := h.quiet
  have hw := h.written
  rw [uses_eq] at hf
  rw [headings_eq] at hw
  simp only [asks_eq, Bool.or_eq_false_iff] at hq
  exact ⟨hf.right, hq.2, fun heading hm => hw heading (List.mem_append_right _ hm)⟩

theorem blocks (h : b.Fits K) {c : Block} (hc : c ∈ b.blocks) : c.Fits K := by
  have hf := h.fit
  have hq := h.quiet
  have hw := h.written
  rw [uses_eq] at hf
  rw [headings_eq] at hw
  simp only [asks_eq, Bool.or_eq_false_iff] at hq
  exact of_mem hf.left.right hq.1 (fun heading hm => hw heading (List.mem_append_left _ hm)) hc

theorem default (h : b.Fits K) {p : Parameter} (hp : p ∈ b.parameters) {text : InlineText}
    (ht : p.default = some text) : text.Fits K := by
  intro k hk
  refine h.fit.part k ?_
  simp only [uses_eq, List.mem_append, List.mem_flatMap]
  exact .inl (.inl ⟨p, hp, by simpa [Parameter.uses, ht] using hk⟩)

end Block.Fits

/-- Documents whose nodes and blocks fit. -/
structure Document.Fits (K : Stock) (d : Document) : Prop where
  nodes : Node.Fits K d.nodes
  blocks : ∀ b ∈ d.blocks, b.Fits K

/-! ## Collections from descriptions -/

/-- A collection whose documents were made from descriptions and added one by one. -/
structure Collection.Described (c : Collection) : Prop where
  sorted : c.documents.keys.Pairwise (· < ·)
  made : ∀ path d, (path, d) ∈ c.documents →
    ∃ description, Document.ofDescription? path description = .ok d

theorem Table.lookup_of_mem {α : Type} {t : Table α} (h : t.keys.Pairwise (· < ·)) {key : String} {x : α}
    (hx : (key, x) ∈ t) : t.lookup key = some x := by
  induction t with
  | nil => cases hx
  | cons e t ih =>
    obtain ⟨k, y⟩ := e
    rw [Table.lookup_cons]
    obtain ⟨hlt, ht⟩ := List.pairwise_cons.1 (show (k :: Table.keys t).Pairwise (· < ·) from h)
    rcases List.mem_cons.1 hx with heq | hx
    · cases heq
      rw [if_pos rfl]
    · have hk : key ∈ Table.keys t := List.mem_map_of_mem hx
      rw [if_neg, ih ht hx]
      rintro rfl
      exact String.lt_irrefl _ (hlt _ hk)

/-- The keys that name nodes in a collection, and the labeled nodes in it. -/
def Collection.stock (c : Collection) : Stock where
  key k := ∃ path d, (path, d) ∈ c.documents ∧ .node k ∈ d.uses
  heading h := ∃ path d, (path, d) ∈ c.documents ∧ h ∈ d.headings

namespace Collection.Described

variable {c : Collection}

theorem path_eq (h : c.Described) {path : String} {d : Document} (hd : (path, d) ∈ c.documents) :
    d.path = path :=
  let ⟨_, hm⟩ := h.made path d hd
  (Document.numbered_of_ofDescription? hm).1

theorem fits (h : c.Described) {path : String} {d : Document} (hd : (path, d) ∈ c.documents) :
    d.Fits c.stock := by
  obtain ⟨description, hm⟩ := h.made path d hd
  obtain ⟨-, ⟨n, hn⟩, hb, hq, -⟩ := Document.numbered_of_ofDescription? hm
  have hfit : Use.Fit c.stock.key d.uses := by
    refine ⟨fun k hk => ⟨path, d, hd, hk⟩, ?_, hn.nodup⟩
    rintro k hk ⟨path', d', hd', hk'⟩
    obtain ⟨description', hm'⟩ := h.made path' d' hd'
    obtain ⟨-, ⟨n', hn'⟩, -⟩ := Document.numbered_of_ofDescription? hm'
    obtain rfl : path = path' := (hn.mem _ hk).1.symm.trans (hn'.mem _ hk').1
    cases (Table.lookup_of_mem h.sorted hd).symm.trans (Table.lookup_of_mem h.sorted hd')
    cases hn.eq_of_number_eq hk hk' rfl
  have hw : ∀ h ∈ d.headings, c.stock.heading h := fun h hh => ⟨path, d, hd, hh⟩
  exact ⟨⟨hfit.right, hq, fun h hh => hw h (List.mem_append_right _ hh)⟩, fun b hb' =>
    Block.Fits.of_mem hfit.left hb (fun h hh => hw h (List.mem_append_left _ hh)) hb'⟩

end Collection.Described

end Folio
