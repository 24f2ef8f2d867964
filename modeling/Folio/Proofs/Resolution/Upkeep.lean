import Folio.Proofs.Calls
import Folio.Proofs.Resolution.Equipped

/-!
# Induction over registration

Registration goes through nodes, into labeled nodes and into the blocks that are expanded. What it
does there comes down to a few steps: registering a text, a labeled node, an embedding or a term,
opening an expansion, registering blocks, and asking for a range. What all of them keep
(`Run.Upkeep`), at nodes that are due, registration keeps (`Run.Upkeep.registerAll`).
-/

namespace Folio

open Resolution

namespace Run

variable {c : Collection} {J : Resolution → Prop}

/-- The steps of registration keep `J`. -/
structure Upkeep (c : Collection) (J : Resolution → Prop) : Prop where
  text : ∀ {n s f frame content}, Due c n s f frame [.text content] → J s →
    After True (registerText f content) s fun _ s' => J s'
  heading : ∀ {n s f frame heading body}, Due c n s f frame [.labeled heading body] → J s →
    After True (registerHeading f heading) s fun _ s' => J s'
  embedding : ∀ {n s f frame key location written},
    Due c n s f frame [.embedding key location written] → J s →
    After True (registerEmbedding f key location written) s fun _ s' => J s'
  expansion : ∀ {n s f frame key location block tag arguments},
    Due c (n + 1) s f frame [.expansion key location block tag arguments] →
    c.HasCall key arguments → J s →
    After True (openExpansion f location block tag arguments) s fun result s' =>
      J (s'.setState f key (.expansion result.1 result.2))
  term : ∀ {n s f frame key location tag content},
    Due c n s f frame [.term key location tag content] → J s →
    After True (registerTerm f key location tag content) s fun _ s' => J s'
  blocks : ∀ {s f frame blocks}, s.Proper c → s.frame? f = some frame → frame.parent = none →
    (∀ b ∈ blocks, c.HasBlock b) → J s →
    After True (registerBlocks frame.scope f blocks) s fun _ s' => J s'
  range : ∀ {s} f typ, J s → After True (requestRange f typ) s fun _ s' => J s'

/-- Registering the nodes keeps `J`. -/
def Keeping (c : Collection) (J : Resolution → Prop) (n : Nat) (register : FrameId → Run Unit)
    (nodes : List Node) : Prop :=
  ∀ f s frame, Due c n s f frame nodes →
    (∀ key arguments, (key, arguments) ∈ Node.callsAll nodes → c.HasCall key arguments) → J s →
    After True (register f) s fun _ s' => J s'

namespace Upkeep

variable {n : Nat} {enter : FrameId → List Node → Run Unit}

mutual

theorem registerNode (hc : c.Described) (hu : Upkeep c J) (he : Registering c.stock enter)
    (hsec : ∀ nodes, Secures c n (fun f => enter f nodes) nodes)
    (hkeep : ∀ nodes, Keeping c J n (fun f => enter f nodes) nodes) :
    ∀ node : Node, Keeping c J (n + 1) (fun f => registerNode enter f node) [node]
  | .text _ => fun _ _ _ h _ hJ => hu.text h hJ
  | .labeled heading body => fun f s frame h hcalls hJ => by
    dsimp only
    unfold Run.registerNode
    rw [After.bind_iff]
    refine ((hu.heading h hJ).and (h.heading hc).ends.after).mono ?_
    rintro inner s₁ ⟨hJ₁, entry, fr, -, -, -, -, -, hdue⟩
    refine registerNodes hc hu he hsec hkeep body inner s₁ fr hdue (fun key arguments hmem => ?_) hJ₁
    exact hcalls key arguments (by simpa [Node.callsAll, Node.calls] using hmem)
  | .embedding .. => fun _ _ _ h _ hJ => hu.embedding h hJ
  | .expansion key location block tag arguments => fun f s frame h hcalls hJ => by
    dsimp only
    unfold Run.registerNode
    rw [After.bind_iff]
    have hcall := hcalls key arguments (by simp [Node.callsAll, Node.calls])
    refine ((hu.expansion h hcall hJ).and h.expansion.ends.after).mono ?_
    rintro ⟨inner, body⟩ s₁ ⟨hJ₁, entry, fr, -, hblock, hbody, -, -, -, -, -, hdue⟩
    dsimp only at hbody ⊢
    rw [After.bind_iff]
    refine hkeep body inner _ fr hdue (fun key arguments hmem => ?_) hJ₁
    exact hblock.call (hbody ▸ hmem)
  | .term .. => fun _ _ _ h _ hJ => hu.term h hJ
  | .probe .. => fun _ _ _ h => by simpa [Node.asksAny, Node.asks] using h.fits.quiet

theorem registerNodes (hc : c.Described) (hu : Upkeep c J) (he : Registering c.stock enter)
    (hsec : ∀ nodes, Secures c n (fun f => enter f nodes) nodes)
    (hkeep : ∀ nodes, Keeping c J n (fun f => enter f nodes) nodes) :
    ∀ nodes : List Node, Keeping c J (n + 1) (fun f => registerNodes enter f nodes) nodes
  | [] => fun _ _ _ _ _ hJ => hJ
  | node :: rest => fun f s frame h hcalls hJ => by
    dsimp only
    unfold Run.registerNodes
    rw [After.bind_iff]
    have hnode : ∀ key arguments, (key, arguments) ∈ Node.callsAll [node] →
        c.HasCall key arguments := fun key arguments hmem =>
      hcalls key arguments (List.mem_append_left _ (by simpa [Node.callsAll] using hmem))
    refine ((registerNode hc hu he hsec hkeep node f s frame h.head hnode hJ).and
      (registerNode_concludes hc he hsec node f s frame h.head).ends.after).mono ?_
    rintro _ s₁ ⟨hJ₁, hfine, vs, -, hfurnish⟩
    obtain ⟨frame₁, -, hdue⟩ := h.tail hfine hfurnish
    refine registerNodes hc hu he hsec hkeep rest f s₁ frame₁ hdue (fun key arguments hmem => ?_) hJ₁
    exact hcalls key arguments (List.mem_append_right _ hmem)

end

theorem registerWithin (hc : c.Described) (hu : Upkeep c J) (fuel : Nat) (nodes : List Node) :
    Keeping c J fuel (fun f => registerWithin fuel f nodes) nodes := by
  induction fuel generalizing nodes with
  | zero =>
    intro f s frame h
    exact absurd h.depth_pos (Nat.lt_irrefl 0)
  | succ fuel ih =>
    exact hu.registerNodes hc (registering_registerWithin fuel) (registerWithin_concludes hc fuel)
      ih nodes

section

variable {s₁ s : Resolution} (hc : c.Described) (hu : Upkeep c J)
  (hk : Known c.options (c.documents.map Prod.snd) s₁)

include hc hu hk

/-- The blocks of the documents are registered before any of their nodes. -/
theorem registerAllBlocks (hs₁ : s₁.Proper c) (hJ : J s₁) :
    After True (s₁.documents.forM fun (_, info) =>
      registerBlocks info.scope info.frame info.document.blocks) s₁ fun _ s => J s := by
  refine After.mono (Q := fun _ s => (s.Proper c ∧ s₁.Furthers c Nowhere s) ∧ J s)
    (After.forM (fun p hp s ⟨⟨hs, hfur⟩, hJ⟩ => ?_) ⟨⟨hs₁, .refl s₁⟩, hJ⟩) fun _ _ h => h.2
  obtain ⟨frame, hf, htop, -, hscope, -⟩ := (hk.opened p hp).frame
  obtain ⟨frame', hf', hparent, -, hscope', -⟩ := hfur.frame _ frame hf
  have hblocks : ∀ b ∈ p.2.document.blocks, c.HasBlock b := fun b hb =>
    ⟨p.1, p.2.document, hk.mem hc hp, Block.mem_all_of_mem hb⟩
  dsimp only
  rw [← hscope, ← hscope']
  refine ((registerBlocks_safely hs hf' hblocks).ends.after.and
    (hu.blocks hs hf' (hparent.trans htop) hblocks hJ)).mono ?_
  rintro _ s' ⟨⟨hs', hfur', -⟩, hJ'⟩
  exact ⟨⟨hs', hfur.trans hfur'⟩, hJ'⟩

/-- One more document is registered. -/
theorem registerDocument {pre post : Table DocumentInfo} {p : String × DocumentInfo}
    (hsplit : pre ++ p :: post = s₁.documents) (h : Partway c s₁ pre (p :: post) s) {depth : Nat}
    (hdepth : c.blockNames.dedup.length < depth) (hJ : J s) :
    After True (registerDocument depth p) s fun _ s' => J s' := by
  unfold Run.registerDocument
  rw [After.bind_iff]
  have hranges : After True (p.2.document.settings.keys.forM (requestRange p.2.frame)) s
      fun _ s' => J s' := .forM (fun typ _ s hJ => hu.range p.2.frame typ hJ) hJ
  refine (hranges.and (Partway.settings hc hk hsplit h hdepth).ends.after).mono ?_
  rintro _ s₂ ⟨hJ₂, -, -, -, -, frame, -, -, hdue⟩
  refine hu.registerWithin hc depth _ _ s₂ frame hdue (fun key arguments hmem => ?_) hJ₂
  have hp : p ∈ s₁.documents := by simp [← hsplit]
  exact ⟨p.1, p.2.document, hk.mem hc hp, List.mem_append_right _ hmem⟩

end

/-- What the steps of registration keep, registration keeps. -/
theorem registerAll (hc : c.Described) (hu : Upkeep c J)
    (hstart : After True ((c.documents.map Prod.snd).forM addDocument) c.start fun _ s => J s) :
    After True (registerAll (c.documents.map Prod.snd)) c.start fun _ s => J s := by
  rw [registerAll_eq, registerAllWithin, After.bind_iff]
  refine (hstart.and ((addDocuments_concludes (c := c) _).ends.after.and
    (addDocuments_spec c hc.sorted_paths))).mono ?_
  rintro _ s₁ ⟨hJ, hs₁, hk⟩
  rw [After.bind_iff, After.get_iff]
  dsimp only
  rw [After.bind_iff]
  by_cases hnil : s₁.documents = []
  · rw [hnil]
    exact hJ
  refine ((hu.registerAllBlocks hc hk hs₁ hJ).and
    (blocks_concludes hc hk hs₁ hnil).ends.after).mono ?_
  rintro _ s₂ ⟨hJ₂, h₂⟩
  refine (After.forM_split (J := fun pre post s => Partway c s₁ pre post s ∧ J s)
    (fun pre p post s hsplit h => ?_) ⟨h₂, hJ₂⟩).mono fun _ s h => h.2
  exact (Partway.document hc hk hsplit h.1 length_blockNames_lt_depthFor).ends.after.and
    (hu.registerDocument hc hk hsplit h.1 length_blockNames_lt_depthFor h.2)

end Upkeep

end Run

end Folio
