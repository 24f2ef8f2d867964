import Folio.Proofs.Texts

/-!
# The block references of a collection

`Document.calls` lists the block references of a document in reading order, those in its blocks
included, by their keys and with their arguments. What a resolution expands is always one of these.
Keys are used once, so the key of a block reference tells its arguments
(`Collection.Described.arguments_unique`).
-/

namespace Folio

mutual

/-- The block references in a node, with their arguments. -/
def Node.calls : Node → List (NodeKey × Table InlineText)
  | .labeled _ body => Node.callsAll body
  | .expansion key _ _ _ arguments => [(key, arguments)]
  | .probe _ _ _ body => Node.callsAll body
  | _ => []

/-- The block references in nodes. -/
def Node.callsAll : List Node → List (NodeKey × Table InlineText)
  | [] => []
  | n :: rest => n.calls ++ Node.callsAll rest

end

mutual

/-- The block references in a block and in the blocks inside it. -/
def Block.calls : Block → List (NodeKey × Table InlineText)
  | ⟨_, _, _, _, blocks, body⟩ => Block.callsAll blocks ++ Node.callsAll body

def Block.callsAll : List Block → List (NodeKey × Table InlineText)
  | [] => []
  | b :: rest => b.calls ++ Block.callsAll rest

end

/-- The block references of a document in reading order. -/
def Document.calls (d : Document) : List (NodeKey × Table InlineText) :=
  Block.callsAll d.blocks ++ Node.callsAll d.nodes

/-! ## Keys of block references -/

mutual

theorem Node.calls_sublist : ∀ n : Node, (n.calls.map fun p => Use.node p.1).Sublist n.uses
  | .text _ => List.nil_sublist _
  | .labeled heading body => by
    rw [Node.calls, Node.uses]
    exact ((Node.callsAll_sublist body).trans (List.sublist_append_right _ _)).cons _
  | .embedding .. => List.nil_sublist _
  | .expansion key _ _ _ arguments => by
    rw [Node.calls, Node.uses]
    exact (List.nil_sublist _).cons_cons (Use.node key)
  | .term .. => List.nil_sublist _
  | .probe key _ _ body => by
    rw [Node.calls, Node.uses]
    exact (Node.callsAll_sublist body).cons _

theorem Node.callsAll_sublist : ∀ ns : List Node,
    ((Node.callsAll ns).map fun p => Use.node p.1).Sublist (Node.usesAll ns)
  | [] => List.nil_sublist _
  | n :: rest => by
    rw [Node.callsAll, Node.usesAll, List.map_append]
    exact (Node.calls_sublist n).append (Node.callsAll_sublist rest)

end

mutual

theorem Block.calls_sublist : ∀ b : Block, (b.calls.map fun p => Use.node p.1).Sublist b.uses
  | ⟨_, _, _, _, blocks, body⟩ => by
    rw [Block.calls, Block.uses, List.map_append]
    exact ((Block.callsAll_sublist blocks).trans (List.sublist_append_right _ _)).append
      (Node.callsAll_sublist body)

theorem Block.callsAll_sublist : ∀ bs : List Block,
    ((Block.callsAll bs).map fun p => Use.node p.1).Sublist (Block.usesAll bs)
  | [] => List.nil_sublist _
  | b :: rest => by
    rw [Block.callsAll, Block.usesAll, List.map_append]
    exact (Block.calls_sublist b).append (Block.callsAll_sublist rest)

end

theorem Document.calls_sublist (d : Document) :
    (d.calls.map fun p => Use.node p.1).Sublist d.uses := by
  rw [Document.calls, Document.uses, List.map_append]
  exact (Block.callsAll_sublist d.blocks).append (Node.callsAll_sublist d.nodes)

mutual

theorem Block.calls_subset : ∀ b : Block, ∀ c ∈ b.withInner, c.calls ⊆ b.calls
  | ⟨location, tag, name, parameters, blocks, body⟩ => by
    intro c hc p hp
    rw [withInner] at hc
    rcases List.mem_cons.1 hc with rfl | hc
    · exact hp
    · rw [calls]
      exact List.mem_append_left _ (calls_subset_all blocks c hc hp)

theorem Block.calls_subset_all : ∀ bs : List Block, ∀ c ∈ all bs, c.calls ⊆ callsAll bs
  | [] => by simp [all]
  | b :: rest => by
    intro c hc p hp
    rw [all, List.mem_append] at hc
    rw [callsAll, List.mem_append]
    exact hc.imp (fun hc => calls_subset b c hc hp) fun hc => calls_subset_all rest c hc hp

end

namespace Collection

variable {c : Collection}

/-- A block reference with the key and the arguments stands in a document of the collection. -/
def HasCall (c : Collection) (key : NodeKey) (arguments : Table InlineText) : Prop :=
  ∃ path d, (path, d) ∈ c.documents ∧ (key, arguments) ∈ d.calls

theorem HasBlock.call {b : Block} (h : c.HasBlock b) {key : NodeKey}
    {arguments : Table InlineText} (hmem : (key, arguments) ∈ Node.callsAll b.body) :
    c.HasCall key arguments := by
  obtain ⟨path, d, hd, hb⟩ := h
  refine ⟨path, d, hd, List.mem_append_left _ (Block.calls_subset_all d.blocks b hb ?_)⟩
  cases b
  rw [Block.calls]
  exact List.mem_append_right _ hmem

/-- A key tells the arguments of the block reference that it names. -/
theorem Described.arguments_unique (h : c.Described) {key : NodeKey}
    {arguments arguments' : Table InlineText} (hr : c.HasCall key arguments)
    (hr' : c.HasCall key arguments') : arguments = arguments' := by
  obtain ⟨path, d, hd, hmem⟩ := hr
  obtain ⟨path', d', hd', hmem'⟩ := hr'
  obtain ⟨description, hm⟩ := h.made path d hd
  obtain ⟨description', hm'⟩ := h.made path' d' hd'
  obtain ⟨-, ⟨n, hn⟩, -⟩ := Document.numbered_of_ofDescription? hm
  obtain ⟨-, ⟨n', hn'⟩, -⟩ := Document.numbered_of_ofDescription? hm'
  have huse : Use.node key ∈ d.uses :=
    d.calls_sublist.subset (List.mem_map.2 ⟨_, hmem, rfl⟩)
  have huse' : Use.node key ∈ d'.uses :=
    d'.calls_sublist.subset (List.mem_map.2 ⟨_, hmem', rfl⟩)
  obtain rfl : path = path' := (hn.mem _ huse).1.symm.trans (hn'.mem _ huse').1
  cases (Table.lookup_of_mem h.sorted hd).symm.trans (Table.lookup_of_mem h.sorted hd')
  have heq := List.inj_on_of_nodup_map (hn.nodup.sublist d.calls_sublist) hmem hmem' rfl
  exact congrArg Prod.snd heq

end Collection

end Folio
