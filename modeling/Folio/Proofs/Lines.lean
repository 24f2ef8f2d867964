import Folio.Proofs.Texts

/-!
# Where blocks are written

The statements of a document are numbered as they are made, and the location of a block has the
number of the statement that it is written in. So no two blocks of a collection have one location
(`Collection.Described.nodup_locations`). The location tells which block is meant, whatever its name
(`Collection.Described.eq_of_location`).
-/

namespace Folio

namespace Document

variable {α β : Type}

/-! ## Lines go up -/

/-- Making something takes up statements, if any, behind those before. -/
def Advances (m : Making α) : Prop := ∀ p a p', m p = .ok (a, p') → p.line ≤ p'.line

namespace Advances

variable {m : Making α}

theorem pure (a : α) : Advances (Pure.pure a) := by
  intro p b p' h
  cases h
  exact Nat.le_refl _

theorem throw (e : ResolveError) : Advances (MonadExcept.throw e : Making α) :=
  fun _ _ _ h => by cases h

theorem bind {f : α → Making β} (hm : Advances m) (hf : ∀ a, Advances (f a)) :
    Advances (m >>= f) := by
  intro p b p'' h
  obtain ⟨a, p', hmp, h⟩ := run_bind h
  exact Nat.le_trans (hm p a p' hmp) (hf a p' b p'' h)

theorem mapM {m : α → Making β} (hm : ∀ a, Advances (m a)) (as : List α) :
    Advances (as.mapM m) := by
  induction as with
  | nil => exact .pure []
  | cons a as ih =>
    rw [List.mapM_cons]
    exact (hm a).bind fun b => ih.bind fun bs => .pure (b :: bs)

theorem mapM_option {m : α → Making β} (hm : ∀ a, Advances (m a)) (a : Option α) :
    Advances (a.mapM m) := by
  cases a with
  | none => exact .pure none
  | some a =>
    change Advances (some <$> m a)
    rw [map_eq_pure_bind]
    exact (hm a).bind fun b => .pure (some b)

end Advances

variable (document : String)

theorem nextLocation_advances (depth : Nat) : Advances (nextLocation document depth) := by
  intro p a p' h
  cases h
  exact Nat.le_succ _

theorem nextKey_advances : Advances (nextKey document) := by
  intro p a p' h
  cases h
  exact Nat.le_refl _

theorem inlineText_advances (location : Location) (text : String) :
    Advances (inlineText document location text) := by
  intro p t p' h
  obtain ⟨_, _, hget, h⟩ := run_bind h
  cases hget
  obtain ⟨content, q, hread, h⟩ := run_bind h
  obtain ⟨_, _, hset, h⟩ := run_bind h
  cases hset
  cases h
  change Except.bind _ _ = _ at hread
  cases hr : InlineText.read? document (p.nodes + 1) location text with
  | error e => simp [hr, Except.bind] at hread
  | ok content' =>
    rw [hr] at hread
    cases hread
    exact Nat.le_refl _

theorem nestedRule_advances (location : Location) (typ text : String) :
    Advances (nestedRule location typ text) := by
  unfold nestedRule
  split
  · exact .pure _
  · exact .throw _

mutual

theorem node_advances (depth : Nat) : ∀ n : NodeDescription, Advances (node document depth n)
  | .text text => by
    unfold node
    exact (nextLocation_advances document depth).bind fun location =>
      (inlineText_advances document location text).bind fun _ => .pure _
  | .heading tag title body => by
    unfold node
    refine (nextLocation_advances document depth).bind fun location => ?_
    refine (nextKey_advances document).bind fun key => ?_
    refine (inlineText_advances document location title).bind fun _ => ?_
    exact (nodeList_advances (depth + 1) body).bind fun _ => .pure _
  | .subRange typ tag title rule body => by
    unfold node
    refine (nextLocation_advances document depth).bind fun location => ?_
    refine (nextKey_advances document).bind fun key => ?_
    split
    · exact fun _ _ _ h => by cases h
    refine (inlineText_advances document location title).bind fun _ => ?_
    refine (nodeList_advances (depth + 1) body).bind fun _ => ?_
    exact (Advances.mapM_option (nestedRule_advances location typ) rule).bind fun _ => .pure _
  | .embedding link => by
    unfold node
    refine (nextLocation_advances document depth).bind fun location => ?_
    exact (nextKey_advances document).bind fun key => .pure _
  | .expansion block tag arguments => by
    unfold node
    refine (nextLocation_advances document depth).bind fun location => ?_
    refine (nextKey_advances document).bind fun key => ?_
    exact (Advances.mapM (fun _ => (inlineText_advances document location _).bind fun _ =>
      .pure _) arguments).bind fun _ => .pure _
  | .term tag text => by
    unfold node
    refine (nextLocation_advances document depth).bind fun location => ?_
    refine (nextKey_advances document).bind fun key => ?_
    exact (inlineText_advances document location text).bind fun _ => .pure _

theorem nodeList_advances (depth : Nat) :
    ∀ ns : List NodeDescription, Advances (nodeList document depth ns)
  | [] => .pure []
  | n :: rest => by
    unfold nodeList
    exact (node_advances depth n).bind fun _ => (nodeList_advances depth rest).bind fun _ =>
      .pure _

end

end Document

/-! ## Lines of blocks -/

/-- The blocks are written one behind the other, behind `a` and up to `b`. -/
structure Lined (document : String) (a b : Nat) (bs : List Block) : Prop where
  le : a ≤ b
  mem : ∀ c ∈ bs, c.location.source = document ∧ a < c.location.line ∧ c.location.line ≤ b
  lt : bs.Pairwise fun c d => c.location.line < d.location.line

namespace Lined

variable {document : String} {a b c : Nat} {bs cs : List Block}

theorem nil (h : a ≤ b) : Lined document a b [] := ⟨h, by simp, .nil⟩

theorem append (h : Lined document a b bs) (h' : Lined document b c cs) :
    Lined document a c (bs ++ cs) := by
  refine ⟨Nat.le_trans h.le h'.le, fun x hx => ?_, List.pairwise_append.2 ⟨h.lt, h'.lt, ?_⟩⟩
  · rcases List.mem_append.1 hx with hx | hx
    · obtain ⟨hd, hlt, hle⟩ := h.mem x hx
      exact ⟨hd, hlt, Nat.le_trans hle h'.le⟩
    · obtain ⟨hd, hlt, hle⟩ := h'.mem x hx
      exact ⟨hd, Nat.lt_of_le_of_lt h.le hlt, hle⟩
  · intro x hx y hy
    exact Nat.lt_of_le_of_lt (h.mem x hx).2.2 (h'.mem y hy).2.1

/-- More statements may stand before the blocks and behind them. -/
theorem widen (h : Lined document a b bs) {a' b' : Nat} (ha : a' ≤ a) (hb : b ≤ b') :
    Lined document a' b' bs := by
  simpa using ((nil ha).append h).append (nil hb)

/-- A block comes before the blocks inside it. -/
theorem cons {x : Block} (h : Lined document (a + 1) b bs) (hd : x.location.source = document)
    (hl : x.location.line = a + 1) : Lined document a b (x :: bs) := by
  refine ⟨Nat.le_of_succ_le h.le, fun y hy => ?_, List.pairwise_cons.2 ⟨fun y hy => ?_, h.lt⟩⟩
  · rcases List.mem_cons.1 hy with rfl | hy
    · exact ⟨hd, by omega, hl ▸ h.le⟩
    · obtain ⟨hdy, hlt, hle⟩ := h.mem y hy
      exact ⟨hdy, Nat.lt_of_succ_lt hlt, hle⟩
  · exact hl ▸ (h.mem y hy).2.1

theorem nodup (h : Lined document a b bs) : (bs.map Block.location).Nodup :=
  List.pairwise_map.2 (h.lt.imp fun hlt heq => by simp [heq] at hlt)

end Lined

namespace Document

variable {document : String}

mutual

theorem block_lined (depth : Nat) (outer : String) : ∀ (b : BlockDescription) {p p' : Position}
    {x : Block}, block document depth outer b p = .ok (x, p') →
      Lined document p.line p'.line x.withInner
  | ⟨tag, parameters, blocks, body⟩, p, p', x, h => by
    unfold block at h
    obtain ⟨location, p₁, hl, h⟩ := run_bind h
    obtain ⟨parameters', p₂, hp, h⟩ := run_bind h
    obtain ⟨inner, p₃, hb, h⟩ := run_bind h
    obtain ⟨body', p₄, hn, h⟩ := run_bind h
    cases h
    cases hl
    have hparameters := Advances.mapM (fun q : ParameterDescription =>
      (Advances.mapM_option (inlineText_advances document _) q.default).bind fun d =>
        .pure (⟨q.name, d⟩ : Parameter)) parameters _ _ _ hp
    have hbody := nodeList_advances document (depth + 1) body _ _ _ hn
    rw [Block.withInner_eq]
    exact ((blockList_lined (depth + 1) _ blocks hb).widen hparameters hbody).cons rfl rfl

theorem blockList_lined (depth : Nat) (outer : String) : ∀ (bs : List BlockDescription)
    {p p' : Position} {xs : List Block}, blockList document depth outer bs p = .ok (xs, p') →
      Lined document p.line p'.line (Block.all xs)
  | [], p, p', xs, h => by
    cases h
    exact .nil (Nat.le_refl _)
  | b :: rest, p, p', xs, h => by
    unfold blockList at h
    obtain ⟨x, p₁, hb, h⟩ := run_bind h
    obtain ⟨xs, p₂, hr, h⟩ := run_bind h
    cases h
    exact (block_lined depth outer b hb).append (blockList_lined depth outer rest hr)

end

theorem lined_of_ofDescription? {path : String} {description : Description} {d : Document}
    (h : ofDescription? path description = .ok d) :
    ∃ n, Lined path 0 n (Block.all d.blocks) := by
  obtain ⟨p, hp⟩ := exists_of_ofDescription? h
  obtain ⟨settings, p₁, hs, h₁⟩ := run_bind hp
  obtain ⟨blocks, p₂, hb, h₂⟩ := run_bind h₁
  obtain ⟨nodes, p₃, hn, h₃⟩ := run_bind h₂
  cases h₃
  exact ⟨p₂.line, (blockList_lined 0 _ _ hb).widen (Nat.zero_le _) (Nat.le_refl _)⟩

end Document

/-! ## Blocks of a collection -/

namespace Collection.Described

variable {c : Collection}

/-- No two blocks of a collection have one location. -/
theorem nodup_locations (h : c.Described) :
    ((Block.all ((c.documents.map Prod.snd).flatMap Document.blocks)).map
      Block.location).Nodup := by
  rw [Block.all_flatMap, List.map_flatMap, List.flatMap_map, List.nodup_flatMap]
  have hlined : ∀ p ∈ c.documents, ∃ n, Lined p.1 0 n (Block.all p.2.blocks) := fun p hp => by
    obtain ⟨description, hd⟩ := h.made p.1 p.2 hp
    exact Document.lined_of_ofDescription? hd
  refine ⟨fun p hp => (hlined p hp).elim fun n hn => hn.nodup, ?_⟩
  have hpaths : c.documents.Pairwise fun p q => p.1 < q.1 := List.pairwise_map.1 h.sorted
  refine hpaths.imp_of_mem fun {p q} hp hq hlt => ?_
  rintro location hl hl'
  obtain ⟨x, hx, rfl⟩ := List.mem_map.1 hl
  obtain ⟨y, hy, heq⟩ := List.mem_map.1 hl'
  obtain ⟨n, hn⟩ := hlined p hp
  obtain ⟨n', hn'⟩ := hlined q hq
  have hsource : q.1 = p.1 := by rw [← (hn'.mem y hy).1, heq, (hn.mem x hx).1]
  exact String.lt_irrefl _ (hsource ▸ hlt)

/-- Locations tell blocks apart. -/
theorem eq_of_location (h : c.Described) {b b' : Block} (hb : c.HasBlock b) (hb' : c.HasBlock b')
    (hl : b.location = b'.location) : b = b' :=
  List.inj_on_of_nodup_map h.nodup_locations hb.mem_all hb'.mem_all hl

end Collection.Described

end Folio
