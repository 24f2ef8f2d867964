import Folio.Proofs.FoundTexts

/-!
# Registration comes to an end

Registering nodes expands blocks, whose nodes are registered in their turn, and evaluates values,
whose texts hold values themselves. Neither goes on for ever:

* expansions that lie in one another add different names to the call stack, so they lie no deeper
  than there are names of blocks (`Resolution.Framed.length_expansions_le`);
* a value was bound in a scope before the one that it is looked up in, so a chain of evaluations
  leads to earlier and earlier scopes (`Resolution.Framed.evaluations_descend`).

So the depth of expansions that registration allows for makes no difference as soon as it exceeds
the number of names (`Run.registerAllWithin_eq`), and registration never ends for lack of depth
(`Collection.Described.registration_ends`).
-/

namespace Folio

open Resolution

/-! ## Values in values -/

namespace Resolution

variable {c : Collection} {s : Resolution} {f g : FrameId}

/-- A value in a text that is handled in the frame `f` is evaluated in the frame `g`. -/
def Evaluates (s : Resolution) (f g : FrameId) : Prop :=
  ∃ frame, s.frame? g = some frame ∧ frame.parent = some f ∧ frame.kind = .static

theorem evaluates_iff : s.Evaluates f g ↔ (s.frame? g).any fun frame =>
    frame.parent = some f ∧ (frame.kind matches .static) := by
  unfold Evaluates
  cases s.frame? g with
  | none => simp
  | some frame => cases hk : frame.kind <;> simp [hk]

instance : DecidableRel s.Evaluates := fun _ _ => decidable_of_iff _ evaluates_iff.symm

/-- A value is evaluated in an earlier scope than the text that it stands in. -/
theorem Framed.scope_lt_of_evaluates (h : s.Framed c) (he : s.Evaluates f g) :
    (s.scopeOf g).index < (s.scopeOf f).index := by
  obtain ⟨frame, hg, hp, hk⟩ := he
  have hadmits := h.admits g frame hg
  rw [Admits, hk] at hadmits
  obtain ⟨p, outer, hp', hf, hlt⟩ := hadmits
  cases hp.symm.trans hp'
  rwa [scopeOf_eq hg, scopeOf_eq hf]

/-- Values in values lead to earlier and earlier scopes. -/
theorem Framed.evaluations_descend (h : s.Framed c) {fs : List FrameId}
    (hfs : fs.IsChain s.Evaluates) :
    fs.Pairwise fun f g => (s.scopeOf g).index < (s.scopeOf f).index := by
  have : IsTrans FrameId fun f g => (s.scopeOf g).index < (s.scopeOf f).index :=
    ⟨fun _ _ _ h h' => Nat.lt_trans h' h⟩
  exact List.isChain_iff_pairwise.1 (hfs.imp fun _ _ => h.scope_lt_of_evaluates)

/-- So there are no more of them than scopes before the first one. -/
theorem Framed.length_evaluations_le (h : s.Framed c) {fs : List FrameId}
    (hfs : (f :: fs).IsChain s.Evaluates) : fs.length ≤ (s.scopeOf f).index := by
  induction fs generalizing f with
  | nil => exact Nat.zero_le _
  | cons g fs ih =>
    obtain ⟨hfg, hgs⟩ := List.isChain_cons_cons.1 hfs
    exact Nat.lt_of_le_of_lt (ih hgs) (h.scope_lt_of_evaluates hfg)

end Resolution

/-! ## Expansions in expansions -/

namespace Run

variable {c : Collection} {s : Resolution} {f : FrameId} {frame : Frame}
  {enter enter' : FrameId → List Node → Run Unit} {n : Nat}

mutual

theorem registerNode_congr (hc : c.Described) (he : Registering c.stock enter)
    (hsec : ∀ nodes, Secures c n (fun f => enter f nodes) nodes)
    (heq : ∀ f nodes s frame, Due c n s f frame nodes → enter f nodes s = enter' f nodes s) :
    ∀ (node : Node) f s frame, Due c (n + 1) s f frame [node] →
      registerNode enter f node s = registerNode enter' f node s
  | .text _ | .embedding .. | .term .. => fun _ _ _ _ => by
    unfold registerNode
    rfl
  | .labeled heading body => fun f s frame h => by
    unfold registerNode
    refine bind_congr_ok fun inner s' hs' => ?_
    obtain ⟨_, fr, -, -, -, -, -, hdue⟩ := (h.heading hc).ends.of_ok hs'
    exact registerNodes_congr hc he hsec heq body inner s' fr hdue
  | .expansion key location block tag arguments => fun f s frame h => by
    unfold registerNode
    refine bind_congr_ok fun ⟨inner, body⟩ s' hs' => ?_
    obtain ⟨_, fr, -, -, -, -, -, -, -, -, hdue⟩ := h.expansion.ends.of_ok hs'
    exact heq inner body _ fr hdue
  | .probe .. => fun _ _ _ h => by simpa [Node.asksAny, Node.asks] using h.fits.quiet

theorem registerNodes_congr (hc : c.Described) (he : Registering c.stock enter)
    (hsec : ∀ nodes, Secures c n (fun f => enter f nodes) nodes)
    (heq : ∀ f nodes s frame, Due c n s f frame nodes → enter f nodes s = enter' f nodes s) :
    ∀ (nodes : List Node) f s frame, Due c (n + 1) s f frame nodes →
      registerNodes enter f nodes s = registerNodes enter' f nodes s
  | [] => fun _ _ _ _ => by
    unfold registerNodes
    rfl
  | node :: rest => fun f s frame h => by
    unfold registerNodes
    have hnode := registerNode_congr hc he hsec heq node f s frame h.head
    cases hs' : registerNode enter f node s with
    | ok _ s' =>
      obtain ⟨hfine, vs, -, hfurnishes⟩ :=
        (registerNode_concludes hc he hsec node f s frame h.head).ends.of_ok hs'
      obtain ⟨frame', -, hdue⟩ := h.tail hfine hfurnishes
      rw [bind_of_ok hs', bind_of_ok (hnode.symm.trans hs')]
      exact registerNodes_congr hc he hsec heq rest f s' frame' hdue
    | error e s' => rw [bind_of_error hs', bind_of_error (hnode.symm.trans hs')]

end

/-- A depth that is enough for some nodes does what any greater one does. -/
theorem registerWithin_eq (hc : c.Described) {n m : Nat} (hle : n ≤ m) (f : FrameId)
    (nodes : List Node) (s : Resolution) (frame : Frame) (h : Due c n s f frame nodes) :
    registerWithin n f nodes s = registerWithin m f nodes s := by
  induction n generalizing m f nodes s frame with
  | zero => exact absurd h.depth_pos (Nat.lt_irrefl 0)
  | succ n ih =>
    obtain ⟨m, rfl⟩ : ∃ k, m = k + 1 := ⟨m - 1, by omega⟩
    exact registerNodes_congr hc (registering_registerWithin n) (registerWithin_concludes hc n)
      (fun f nodes s frame h => ih (by omega) f nodes s frame h) nodes f s frame h

theorem registerDocument_eq (hc : c.Described) {n m : Nat} (hle : n ≤ m)
    (hn : c.blockNames.dedup.length < n) {s₁ : Resolution} {pre post : Table DocumentInfo}
    {p : String × DocumentInfo} (hk : Known c.options (c.documents.map Prod.snd) s₁)
    (hsplit : pre ++ p :: post = s₁.documents) (h : Partway c s₁ pre (p :: post) s) :
    registerDocument n p s = registerDocument m p s := by
  refine bind_congr_ok fun _ s' hs' => ?_
  obtain ⟨-, -, -, -, frame, -, -, hdue⟩ :=
    (Partway.settings hc hk hsplit h hn).ends.of_ok hs'
  exact registerWithin_eq hc hle _ _ s' frame hdue

/-- So does a depth that exceeds the number of names of blocks. -/
theorem registerAllWithin_eq (hc : c.Described) {n m : Nat} (hle : n ≤ m)
    (hn : c.blockNames.dedup.length < n) :
    registerAllWithin n (c.documents.map Prod.snd) c.start =
      registerAllWithin m (c.documents.map Prod.snd) c.start := by
  refine bind_congr_ok fun _ s₁ h₁ => ?_
  obtain ⟨hk, hs₁⟩ := ((addDocuments_concludes _).inspect
    (addDocuments_spec c hc.sorted_paths)).ends.of_ok h₁
  change (s₁.documents.forM (fun p => registerBlocks p.2.scope p.2.frame p.2.document.blocks) >>=
      fun _ => s₁.documents.forM (registerDocument n)) s₁ =
    (_ >>= fun _ => s₁.documents.forM (registerDocument m)) s₁
  by_cases hnil : s₁.documents = []
  · rw [hnil]
    rfl
  refine bind_congr_ok fun _ s₂ h₂ => ?_
  refine Ends.forM_congr (R := ResolveError.External)
    (J := fun pre post s => Partway c s₁ pre post s) (fun pre p post s hsplit h => ?_)
    ((blocks_concludes hc hk hs₁ hnil).ends.of_ok h₂)
  exact ⟨registerDocument_eq hc hle hn hk hsplit h,
    (Partway.document hc hk hsplit h hn).ends⟩

end Run

/-! ## Registration -/

namespace Collection

variable {c : Collection}

/-- Registration comes to an end: it succeeds, or it fails, but not for lack of depth, and another
depth for the expansions would have made no difference. The frames that it leaves, also if it fails,
are all that were ever opened. In them expansions lie no deeper than there are names of blocks, and
values in values lead to earlier and earlier scopes. -/
theorem Described.registration_ends (hc : c.Described) :
    (∀ depth, c.blockNames.dedup.length < depth →
      Run.registerAllWithin depth (c.documents.map Prod.snd) c.start =
        Run.registerAll (c.documents.map Prod.snd) c.start) ∧
    ∃ s, (Run.registerAll (c.documents.map Prod.snd) c.start = .ok () s ∨
        ∃ e, Run.registerAll (c.documents.map Prod.snd) c.start = .error e s ∧
          ∀ location, e ≠ .located location .tooDeep) ∧
      (∀ f frame calls, s.frame? f = some frame → frame.kind = .block calls →
        calls.trail.entries.Nodup ∧ calls.trail.entries ⊆ c.blockNames ∧
          calls.trail.entries.length = (s.expansions f).length) ∧
      (∀ f frame, s.frame? f = some frame →
        (s.expansions f).length ≤ c.blockNames.dedup.length) ∧
      ∀ f fs, (f :: fs).IsChain s.Evaluates → fs.length ≤ (s.scopeOf f).index ∧
        (f :: fs).Pairwise fun f g => (s.scopeOf g).index < (s.scopeOf f).index := by
  have hconcludes := hc.registerAll_concludes
  refine ⟨fun depth hdepth => ?_, ?_⟩
  · have hleast : ∀ n, c.blockNames.dedup.length < n →
        Run.registerAllWithin (c.blockNames.dedup.length + 1) (c.documents.map Prod.snd) c.start =
          Run.registerAllWithin n (c.documents.map Prod.snd) c.start :=
      fun n hn => Run.registerAllWithin_eq hc hn (Nat.lt_succ_self _)
    rw [Run.registerAll_eq, ← hleast depth hdepth, hleast _ Run.length_blockNames_lt_depthFor]
  obtain ⟨s, hs, hframed⟩ : ∃ s, (Run.registerAll (c.documents.map Prod.snd) c.start = .ok () s ∨
      ∃ e, Run.registerAll (c.documents.map Prod.snd) c.start = .error e s ∧ e.External) ∧
      s.Framed c := by
    have hframed := hconcludes.framed
    unfold Leaves at hframed
    cases h : Run.registerAll (c.documents.map Prod.snd) c.start with
    | ok _ s => exact ⟨s, .inl rfl, by simpa only [h] using hframed⟩
    | error e s =>
      exact ⟨s, .inr ⟨e, rfl, hconcludes.ends.of_error h⟩, by simpa only [h] using hframed⟩
  refine ⟨s, hs.imp_right ?_, fun f frame calls hf hk => ?_,
    fun f frame hf => hframed.length_expansions_le hf,
    fun f fs hfs => ⟨hframed.length_evaluations_le hfs, hframed.evaluations_descend hfs⟩⟩
  · rintro ⟨e, he, hexternal⟩
    refine ⟨e, he, ?_⟩
    rintro location rfl
    exact hexternal trivial
  · have hcalls : s.callStack f = calls := by rw [callStack_eq hframed.ordered hf, hk]
    rw [← hcalls]
    exact ⟨(s.callStack f).trail.nodup, hframed.calls_subset hf, hframed.length_calls hf⟩

/-- A block expands another one and hands on a value, which it has by default. -/
def handedOn : Collection := single "/doc" {
  blocks := [
    { tag := "outer", parameters := [⟨"x", some "D"⟩]
      nodes := [.expansion "inner" none [("x", "\x7b\x7bvalue x\x7d\x7d")]] },
    { tag := "inner", parameters := [⟨"x", none⟩]
      nodes := [.text "\x7b\x7bvalue x\x7d\x7d"] }]
  nodes := [.expansion "outer" none []] }

/-- Both blocks are expanded in one another, and the value leads from the scope of the inner one
over that of the outer one to that of the document. -/
theorem registration_ends_handedOn : ∃ s,
    Run.registerAll (handedOn.documents.map Prod.snd) handedOn.start = .ok () s ∧
      (s.expansions ⟨2⟩).length = 2 ∧ (s.expansions ⟨2⟩).length ≤
        handedOn.blockNames.dedup.length ∧
      [⟨2⟩, ⟨3⟩, ⟨4⟩].IsChain s.Evaluates ∧ (s.scopeOf ⟨3⟩).index < (s.scopeOf ⟨2⟩).index ∧
      (s.scopeOf ⟨4⟩).index < (s.scopeOf ⟨3⟩).index := by
  have hd : handedOn.Described := single_described ..
  obtain ⟨-, s, hs, -, hdepth, hdescend⟩ := hd.registration_ends
  obtain ⟨_, t, ht, hframe, hlength, hchain⟩ := exists_ok_and (s := handedOn.start)
    (m := Run.registerAll (handedOn.documents.map Prod.snd))
    (P := fun _ s => (s.frame? ⟨2⟩).isSome ∧ (s.expansions ⟨2⟩).length = 2 ∧
      [⟨2⟩, ⟨3⟩, ⟨4⟩].IsChain s.Evaluates) (by decide +kernel)
  obtain rfl : s = t := by
    rcases hs with hs | ⟨e, he, -⟩
    · cases hs.symm.trans ht
      rfl
    · cases he.symm.trans ht
  obtain ⟨frame, hf⟩ := Option.isSome_iff_exists.1 hframe
  obtain ⟨hfirst, hrest⟩ := List.pairwise_cons.1 (hdescend ⟨2⟩ _ hchain).2
  exact ⟨s, ht, hlength, hdepth ⟨2⟩ frame hf, hchain, hfirst ⟨3⟩ (by simp),
    (List.pairwise_cons.1 hrest).1 ⟨4⟩ (by simp)⟩

end Collection

end Folio
