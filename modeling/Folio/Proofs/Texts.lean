import Folio.Proofs.Keys
import Mathlib.Data.List.Nodup

/-!
# The texts and blocks of a collection

`Document.texts` lists the inline texts of a document in reading order, those of its blocks
included, and `Block.all` the blocks that lie in blocks. What a resolution handles is always one of
these: the text of a node, an argument, or a default argument.

Keys are used once, so a key tells which part of which text it belongs to
(`Collection.Described.part_unique`). What is kept under a key of a part is therefore kept for a
part of that sort.
-/

namespace Folio

/-! ## Texts -/

mutual

/-- The texts of a node in reading order, without those of the blocks it expands. -/
def Node.texts : Node → List InlineText
  | .text content => [content]
  | .labeled heading body => heading.title :: Node.textsAll body
  | .embedding .. => []
  | .expansion _ _ _ _ arguments => arguments.map Prod.snd
  | .term _ _ _ content => [content]
  | .probe _ _ _ body => Node.textsAll body

/-- The texts of nodes in reading order. -/
def Node.textsAll : List Node → List InlineText
  | [] => []
  | n :: rest => n.texts ++ Node.textsAll rest

end

mutual

/-- The texts of a block in reading order: default arguments, inner blocks, nodes. -/
def Block.texts : Block → List InlineText
  | ⟨_, _, _, parameters, blocks, body⟩ =>
    parameters.flatMap (·.default.toList) ++ Block.textsAll blocks ++ Node.textsAll body

def Block.textsAll : List Block → List InlineText
  | [] => []
  | b :: rest => b.texts ++ Block.textsAll rest

end

/-- The texts of a document in reading order. -/
def Document.texts (d : Document) : List InlineText :=
  Block.textsAll d.blocks ++ Node.textsAll d.nodes

/-! ## Blocks in blocks -/

mutual

/-- A block and the blocks that lie in it. -/
def Block.withInner : Block → List Block
  | ⟨location, tag, name, parameters, blocks, body⟩ =>
    ⟨location, tag, name, parameters, blocks, body⟩ :: Block.all blocks

/-- Blocks and the blocks that lie in them. -/
def Block.all : List Block → List Block
  | [] => []
  | b :: rest => b.withInner ++ Block.all rest

end

namespace Block

theorem texts_eq (b : Block) : b.texts =
    b.parameters.flatMap (·.default.toList) ++ textsAll b.blocks ++ Node.textsAll b.body := by
  cases b
  rw [texts]

theorem withInner_eq (b : Block) : b.withInner = b :: all b.blocks := by
  cases b
  rw [withInner]

theorem mem_all_of_mem {b : Block} {bs : List Block} (h : b ∈ bs) : b ∈ all bs := by
  induction bs with
  | nil => cases h
  | cons c bs ih =>
    rw [all, List.mem_append]
    rcases List.mem_cons.1 h with rfl | h
    · exact .inl (by rw [withInner_eq]; simp)
    · exact .inr (ih h)

theorem all_append (bs cs : List Block) : all (bs ++ cs) = all bs ++ all cs := by
  induction bs with
  | nil => rfl
  | cons b bs ih => rw [List.cons_append, all, ih, all, List.append_assoc]

theorem all_flatMap {α : Type} (f : α → List Block) (as : List α) :
    all (as.flatMap f) = as.flatMap fun a => all (f a) := by
  induction as with
  | nil => rfl
  | cons a as ih => rw [List.flatMap_cons, all_append, ih, List.flatMap_cons]

mutual

theorem length_withInner : ∀ b : Block, b.withInner.length = b.total
  | ⟨_, _, _, _, blocks, _⟩ => by
    rw [withInner, total, List.length_cons, length_all blocks]

theorem length_all : ∀ bs : List Block, (all bs).length = totalAll bs
  | [] => rfl
  | b :: rest => by
    rw [all, totalAll, List.length_append, length_withInner b, length_all rest]

end

mutual

/-- Blocks that lie in a block that lies in another one lie in that one. -/
theorem withInner_subset : ∀ b : Block, ∀ c ∈ b.withInner, c.withInner ⊆ b.withInner
  | ⟨location, tag, name, parameters, blocks, body⟩ => by
    intro c hc
    rw [withInner] at hc
    rcases List.mem_cons.1 hc with rfl | hc
    · exact fun _ h => h
    · intro d hd
      rw [withInner]
      exact List.mem_cons_of_mem _ (all_subset blocks c hc hd)

theorem all_subset : ∀ bs : List Block, ∀ c ∈ all bs, c.withInner ⊆ all bs
  | [] => by simp [all]
  | b :: rest => by
    intro c hc d hd
    rw [all, List.mem_append] at hc ⊢
    exact hc.imp (fun hc => withInner_subset b c hc hd) fun hc => all_subset rest c hc hd

end

mutual

theorem texts_subset : ∀ b : Block, ∀ c ∈ b.withInner, c.texts ⊆ b.texts
  | ⟨location, tag, name, parameters, blocks, body⟩ => by
    intro c hc t ht
    rw [withInner] at hc
    rcases List.mem_cons.1 hc with rfl | hc
    · exact ht
    · rw [texts]
      exact List.mem_append_left _ (List.mem_append_right _ (texts_subset_all blocks c hc ht))

theorem texts_subset_all : ∀ bs : List Block, ∀ c ∈ all bs, c.texts ⊆ textsAll bs
  | [] => by simp [all]
  | b :: rest => by
    intro c hc t ht
    rw [all, List.mem_append] at hc
    rw [textsAll, List.mem_append]
    exact hc.imp (fun hc => texts_subset b c hc ht) fun hc => texts_subset_all rest c hc ht

end

end Block

/-! ## Keys of texts -/

/-- The keys of the parts of a text. -/
def InlineText.keys (t : InlineText) : List NodeKey := t.parts.filterMap Part.key?

/-- The key of a part. -/
def Use.part? : Use → Option NodeKey
  | .part key => some key
  | .node _ => none

theorem InlineText.filterMap_uses (t : InlineText) : t.uses.filterMap Use.part? = t.keys := by
  unfold InlineText.uses InlineText.keys
  rw [List.filterMap_filterMap]
  congr 1
  funext p
  cases p.key? <;> rfl

theorem InlineText.flatMap_uses {α : Type} (xs : List α) (text : α → InlineText) :
    (xs.flatMap fun x => (text x).uses).filterMap Use.part? =
      (xs.map text).flatMap InlineText.keys := by
  induction xs with
  | nil => rfl
  | cons x xs ih =>
    rw [List.flatMap_cons, List.filterMap_append, ih, filterMap_uses, List.map_cons,
      List.flatMap_cons]

mutual

theorem Node.parts_uses : ∀ n : Node, n.uses.filterMap Use.part? = n.texts.flatMap InlineText.keys
  | .text content => by simp [Node.uses, Node.texts, InlineText.filterMap_uses]
  | .labeled heading body => by
    rw [Node.uses, Node.texts, List.filterMap_cons_none rfl, List.filterMap_append,
      List.flatMap_cons, InlineText.filterMap_uses, Node.parts_usesAll body]
  | .embedding .. => rfl
  | .expansion _ _ _ _ arguments => by
    rw [Node.uses, Node.texts, List.filterMap_cons_none rfl]
    exact InlineText.flatMap_uses arguments Prod.snd
  | .term _ _ _ content => by
    rw [Node.uses, Node.texts, List.filterMap_cons_none rfl, InlineText.filterMap_uses,
      List.flatMap_singleton]
  | .probe _ _ _ body => by
    rw [Node.uses, Node.texts, List.filterMap_cons_none rfl, Node.parts_usesAll body]

theorem Node.parts_usesAll : ∀ ns : List Node,
    (Node.usesAll ns).filterMap Use.part? = (Node.textsAll ns).flatMap InlineText.keys
  | [] => rfl
  | n :: rest => by
    rw [Node.usesAll, Node.textsAll, List.filterMap_append, List.flatMap_append,
      Node.parts_uses n, Node.parts_usesAll rest]

end

theorem Parameter.parts_uses (ps : List Parameter) :
    (ps.flatMap Parameter.uses).filterMap Use.part? =
      (ps.flatMap (·.default.toList)).flatMap InlineText.keys := by
  induction ps with
  | nil => rfl
  | cons p ps ih =>
    rw [List.flatMap_cons, List.flatMap_cons, List.filterMap_append, List.flatMap_append, ih]
    congr 1
    cases h : p.default <;> simp [Parameter.uses, h, InlineText.filterMap_uses]

mutual

theorem Block.parts_uses : ∀ b : Block,
    b.uses.filterMap Use.part? = b.texts.flatMap InlineText.keys
  | ⟨_, _, _, parameters, blocks, body⟩ => by
    rw [Block.uses, Block.texts]
    simp only [List.filterMap_append, List.flatMap_append, Parameter.parts_uses,
      Block.parts_usesAll blocks, Node.parts_usesAll]

theorem Block.parts_usesAll : ∀ bs : List Block,
    (Block.usesAll bs).filterMap Use.part? = (Block.textsAll bs).flatMap InlineText.keys
  | [] => rfl
  | b :: rest => by
    rw [Block.usesAll, Block.textsAll, List.filterMap_append, List.flatMap_append,
      Block.parts_uses b, Block.parts_usesAll rest]

end

theorem Document.parts_uses (d : Document) :
    d.uses.filterMap Use.part? = d.texts.flatMap InlineText.keys := by
  rw [Document.uses, Document.texts, List.filterMap_append, List.flatMap_append,
    Block.parts_usesAll, Node.parts_usesAll]

theorem Document.part_mem_uses {d : Document} {t : InlineText} (ht : t ∈ d.texts) {p : Part}
    (hp : p ∈ t.parts) {k : NodeKey} (hk : p.key? = some k) : .part k ∈ d.uses := by
  have h : k ∈ d.uses.filterMap Use.part? := by
    rw [d.parts_uses, List.mem_flatMap]
    exact ⟨t, ht, List.mem_filterMap.2 ⟨p, hp, hk⟩⟩
  obtain ⟨u, hu, huk⟩ := List.mem_filterMap.1 h
  cases u with
  | node => cases huk
  | part => cases huk; exact hu

/-- What no two elements of a list have is had by one element. -/
theorem eq_of_nodup_filterMap {α β : Type} {g : α → Option β} {xs : List α}
    (h : (xs.filterMap g).Nodup) {x y : α} (hx : x ∈ xs) (hy : y ∈ xs) {b : β}
    (hxb : g x = some b) (hyb : g y = some b) : x = y := by
  induction xs with
  | nil => cases hx
  | cons z xs ih =>
    have hmem : ∀ w ∈ xs, g w = some b → b ∈ xs.filterMap g := fun w hw hwb =>
      List.mem_filterMap.2 ⟨w, hw, hwb⟩
    rcases List.mem_cons.1 hx with rfl | hx' <;> rcases List.mem_cons.1 hy with rfl | hy'
    · rfl
    · rw [List.filterMap_cons_some hxb] at h
      exact absurd (hmem y hy' hyb) (List.nodup_cons.1 h).1
    · rw [List.filterMap_cons_some hyb] at h
      exact absurd (hmem x hx' hxb) (List.nodup_cons.1 h).1
    · exact ih (h.sublist ((List.sublist_cons_self z xs).filterMap g)) hx' hy'

/-! ## Collections -/

namespace Collection

variable {c : Collection}

/-- The text stands in a document of the collection. -/
def HasText (c : Collection) (t : InlineText) : Prop :=
  ∃ path d, (path, d) ∈ c.documents ∧ t ∈ d.texts

/-- The block stands in a document of the collection. -/
def HasBlock (c : Collection) (b : Block) : Prop :=
  ∃ path d, (path, d) ∈ c.documents ∧ b ∈ Block.all d.blocks

/-- The names of all blocks. -/
def blockNames (c : Collection) : List String :=
  (Block.all ((c.documents.map Prod.snd).flatMap Document.blocks)).map Block.name

theorem length_blockNames (c : Collection) : c.blockNames.length =
    Block.totalAll ((c.documents.map Prod.snd).flatMap Document.blocks) := by
  rw [blockNames, List.length_map, Block.length_all]

namespace HasBlock

variable {b : Block}

theorem mem_all (h : c.HasBlock b) :
    b ∈ Block.all ((c.documents.map Prod.snd).flatMap Document.blocks) := by
  obtain ⟨path, d, hd, hb⟩ := h
  rw [Block.all_flatMap]
  exact List.mem_flatMap.2 ⟨d, List.mem_map_of_mem hd, hb⟩

theorem name_mem (h : c.HasBlock b) : b.name ∈ c.blockNames := List.mem_map_of_mem h.mem_all

/-- If no name is used twice, names tell blocks apart. -/
theorem eq_of_name {b' : Block} (h : c.HasBlock b) (h' : c.HasBlock b')
    (hnodup : c.blockNames.Nodup) (hname : b.name = b'.name) : b = b' :=
  List.inj_on_of_nodup_map hnodup h.mem_all h'.mem_all hname

theorem inner (h : c.HasBlock b) {b' : Block} (hb : b' ∈ b.blocks) : c.HasBlock b' := by
  obtain ⟨path, d, hd, hmem⟩ := h
  refine ⟨path, d, hd, Block.all_subset d.blocks b hmem ?_⟩
  rw [Block.withInner_eq]
  exact List.mem_cons_of_mem _ (Block.mem_all_of_mem hb)

theorem text (h : c.HasBlock b) {t : InlineText} (ht : t ∈ b.texts) : c.HasText t := by
  obtain ⟨path, d, hd, hmem⟩ := h
  exact ⟨path, d, hd, List.mem_append_left _ (Block.texts_subset_all d.blocks b hmem ht)⟩

theorem default (h : c.HasBlock b) {p : Parameter} (hp : p ∈ b.parameters) {t : InlineText}
    (ht : p.default = some t) : c.HasText t := by
  refine h.text ?_
  rw [Block.texts_eq]
  exact List.mem_append_left _ (List.mem_append_left _
    (List.mem_flatMap.2 ⟨p, hp, by simp [ht]⟩))

theorem body (h : c.HasBlock b) {t : InlineText} (ht : t ∈ Node.textsAll b.body) :
    c.HasText t := by
  refine h.text ?_
  rw [Block.texts_eq]
  exact List.mem_append_right _ ht

end HasBlock

namespace Described

/-- A key tells which part it belongs to. -/
theorem part_unique (h : c.Described) {t t' : InlineText} (ht : c.HasText t)
    (ht' : c.HasText t') {p p' : Part} (hp : p ∈ t.parts) (hp' : p' ∈ t'.parts) {k : NodeKey}
    (hk : p.key? = some k) (hk' : p'.key? = some k) : p = p' := by
  obtain ⟨path, d, hd, hmem⟩ := ht
  obtain ⟨path', d', hd', hmem'⟩ := ht'
  obtain ⟨description, hm⟩ := h.made path d hd
  obtain ⟨description', hm'⟩ := h.made path' d' hd'
  obtain ⟨-, ⟨n, hn⟩, -⟩ := Document.numbered_of_ofDescription? hm
  obtain ⟨-, ⟨n', hn'⟩, -⟩ := Document.numbered_of_ofDescription? hm'
  obtain rfl : path = path' := (hn.mem _ (Document.part_mem_uses hmem hp hk)).1.symm.trans
    (hn'.mem _ (Document.part_mem_uses hmem' hp' hk')).1
  cases (Table.lookup_of_mem h.sorted hd).symm.trans (Table.lookup_of_mem h.sorted hd')
  have hnodup : ((d.texts.flatMap InlineText.parts).filterMap Part.key?).Nodup := by
    have heq : (d.texts.flatMap InlineText.parts).filterMap Part.key? =
        d.texts.flatMap InlineText.keys := by
      rw [List.filterMap_flatMap]
      rfl
    rw [heq, ← d.parts_uses]
    refine List.Pairwise.filterMap _ (fun u v hne k hu k' hv hkk => hne ?_) hn.nodup
    cases u <;> cases v <;> simp_all [Use.part?]
  exact eq_of_nodup_filterMap hnodup (List.mem_flatMap.2 ⟨t, hmem, hp⟩)
    (List.mem_flatMap.2 ⟨t', hmem', hp'⟩) hk hk'

/-- A key of a part names no node. -/
theorem part_not_key (h : c.Described) {t : InlineText} (ht : c.HasText t) {p : Part}
    (hp : p ∈ t.parts) {k : NodeKey} (hk : p.key? = some k) : ¬c.stock.key k := by
  rintro ⟨path', d', hd', hk'⟩
  obtain ⟨path, d, hd, hmem⟩ := ht
  have hu := Document.part_mem_uses hmem hp hk
  obtain ⟨description, hm⟩ := h.made path d hd
  obtain ⟨description', hm'⟩ := h.made path' d' hd'
  obtain ⟨-, ⟨n, hn⟩, -⟩ := Document.numbered_of_ofDescription? hm
  obtain ⟨-, ⟨n', hn'⟩, -⟩ := Document.numbered_of_ofDescription? hm'
  obtain rfl : path = path' := (hn.mem _ hu).1.symm.trans (hn'.mem _ hk').1
  cases (Table.lookup_of_mem h.sorted hd).symm.trans (Table.lookup_of_mem h.sorted hd')
  cases hn.eq_of_number_eq hu hk' rfl

end Described

end Collection

end Folio
