import Folio.Proofs.Resolution.Embedding
import Mathlib.Data.List.Perm.Subperm

/-!
# A document and the documents below it

All documents below a document are claimed before the next one that is not (`Resolution.below`).
When they are done, the sections of all of them stand at the places that they have in the one
outline which arises when the top level sections of embedded documents are put in the place of the
references to them (`Resolution.Filled`).

`Run.tree_spec` goes down the embeddings for this. A document is claimed first, which leaves its
sections and a slot for each document that it embeds; these documents come next, one after the
other with all that is below them, and each leaves alone what the other ones wait for.
`Resolution.fill` puts their outlines together again.
-/

namespace Folio

open Resolution

/-- A list that matches two lists in a row falls into two parts. -/
theorem forall₂_append_right {α β : Type} {R : α → β → Prop} {xs : List α} {ys zs : List β}
    (h : List.Forall₂ R xs (ys ++ zs)) :
    ∃ us vs, xs = us ++ vs ∧ List.Forall₂ R us ys ∧ List.Forall₂ R vs zs :=
  ⟨_, _, (List.take_append_drop _ xs).symm, List.forall₂_take_append _ _ _ h,
    List.forall₂_drop_append _ _ _ h⟩

namespace Resolution

variable {D : Table Description} {c : Collection} {W : List (String × List Visit)}
  {s₀ t t' : Resolution} {U : String → Prop} {d : String} {outer : List Nat} {count : Nat}

/-- An entry belongs to the section of a document with a number, counted from 0 on. -/
def IsSection (W : List (String × List Visit)) (o : String × Nat) (entry : EntryId) : Prop :=
  ∃ vs, (o.1, vs) ∈ W ∧ (vs.filterMap Visit.entry?)[o.2]? = some entry

/-- The section of a document with a number has claimed the slot with the given ordinals. -/
def StandsAt (W : List (String × List Visit)) (s₀ t : Resolution) (o : String × Nat)
    (path : List Nat) : Prop :=
  ∃ entry, IsSection W o entry ∧ t.EntryAt entry ⟨s₀.options.sectionType, path⟩

/-- With the references of the document `d` replaced, it consists of sections of the documents below
it, and they stand where they stand there behind `count` others below `outer`. -/
def Filled (D : Table Description) (W : List (String × List Visit)) (s₀ t : Resolution)
    (d : String) (outer : List Nat) (count : Nat) : Prop :=
  ∃ description ns os last, D.lookup d = some description ∧
    Outline.Substitutes D d 0 description.nodes ns os last ∧ (∀ o ∈ os, s₀.Under d o.1) ∧
    (∀ o entry, s₀.Under d o.1 → IsSection W o entry → o ∈ os) ∧
    List.Forall₂ (StandsAt W s₀ t) os (Outline.sections outer count ns)

/-- A visit of the document `d` is done with: a section stands at the given ordinals, and a reference
leads to a document whose sections stand there. -/
def Done (D : Table Description) (W : List (String × List Visit)) (s₀ : Resolution) (d : String)
    (t : Resolution) : Visit → Option String × List Nat → Prop
  | .heading _ _ entry _, (none, path) => t.EntryAt entry ⟨s₀.options.sectionType, path⟩
  | .embedding _ _ _ link, (some written, path) => link.Reads d written ∧
    ∃ e, s₀.documentFor? link = some e ∧ Outline.Embeds D d e ∧
      ∀ outer count, path = outer ++ [count + 1] → Filled D W s₀ t e outer count
  | _, _ => False

/-- The sections of a document stay where they are while others have their turn. -/
theorem StandsAt.spared {o : String × Nat} {path : List Nat} (hp : Prepared c W s₀)
    (h : StandsAt W s₀ t o path) (hs : s₀.Spares U t t') (ho : ¬U o.1) :
    StandsAt W s₀ t' o path := by
  obtain ⟨entry, ⟨vs, hw, hentry⟩, hat⟩ := h
  obtain ⟨typ, hreg⟩ := hp.registered hw (List.mem_of_getElem? hentry)
  exact ⟨entry, ⟨vs, hw, hentry⟩, hs.entryAt entry o.1 typ _ hreg ho hat⟩

theorem Filled.spared (hp : Prepared c W s₀) (h : s₀.Filled D W t d outer count)
    (hs : s₀.Spares U t t') (hd : ∀ e, s₀.Under d e → ¬U e) : s₀.Filled D W t' d outer count := by
  obtain ⟨description, ns, os, last, hlookup, hsub, hunder, hall, hstands⟩ := h
  refine ⟨description, ns, os, last, hlookup, hsub, hunder, hall, ?_⟩
  refine ((List.forall₂_and_left ..).2 ⟨hunder, hstands⟩).imp fun o path ⟨ho, hat⟩ => ?_
  exact hat.spared hp hs (hd o.1 ho)

/-- The visits `vs` of the document `d`, which come after `pre`, were made for the nodes `ms`. With
the references replaced, these are `ns`, and their sections stand behind `count` others below
`outer`. -/
structure Filling (D : Table Description) (W : List (String × List Visit)) (s₀ t : Resolution)
    (d : String) (outer : List Nat) (count : Nat) (pre vs : List Visit)
    (ms ns : List NodeDescription) (os : List (String × Nat)) : Prop where
  substitutes : Outline.Substitutes D d (pre.filterMap Visit.entry?).length ms ns os
    ((pre ++ vs).filterMap Visit.entry?).length
  under : ∀ o ∈ os, o.1 = d ∨ ∃ e ∈ vs.filterMap s₀.goal?, s₀.Under e o.1
  own : ∀ k, (pre.filterMap Visit.entry?).length ≤ k →
    k < ((pre ++ vs).filterMap Visit.entry?).length → (d, k) ∈ os
  below : ∀ e ∈ vs.filterMap s₀.goal?, ∀ o entry, s₀.Under e o.1 → IsSection W o entry → o ∈ os
  stands : List.Forall₂ (StandsAt W s₀ t) os (Outline.sections outer count ns)

namespace Filling

variable {pre ws vs : List Visit} {body rest ms ns : List NodeDescription}
  {os os' : List (String × Nat)}

theorem nil : Filling D W s₀ t d outer count pre [] [] [] [] where
  substitutes := by
    rw [List.append_nil]
    exact .nil d _
  under := by simp
  own k hk hlt := by
    rw [List.append_nil] at hlt
    omega
  below := by simp
  stands := .nil

/-- A section comes first, and then the sections in it. -/
theorem heading {v : Visit} {entry : EntryId} (title : String) (hv : v.entry? = some entry)
    (hgoal : s₀.goal? v = none)
    (hat : StandsAt W s₀ t (d, (pre.filterMap Visit.entry?).length) (outer ++ [count + 1]))
    (hb : Filling D W s₀ t d (outer ++ [count + 1]) 0 (pre ++ [v]) ws body ms os)
    (hr : Filling D W s₀ t d outer (count + 1) (pre ++ v :: ws) vs rest ns os') :
    Filling D W s₀ t d outer count pre (v :: (ws ++ vs)) (.heading none title body :: rest)
      (.heading none title ms :: ns) ((d, (pre.filterMap Visit.entry?).length) :: (os ++ os')) := by
  have hpre : ((pre ++ [v]).filterMap Visit.entry?).length =
      (pre.filterMap Visit.entry?).length + 1 := by
    simp [List.filterMap_append, hv]
  have hmid : pre ++ [v] ++ ws = pre ++ v :: ws := by simp
  have hall : pre ++ v :: ws ++ vs = pre ++ v :: (ws ++ vs) := by simp
  have hgoals : (v :: (ws ++ vs)).filterMap s₀.goal? =
      ws.filterMap s₀.goal? ++ vs.filterMap s₀.goal? := by
    rw [List.filterMap_cons_none hgoal, List.filterMap_append]
  constructor
  · have hbody := hb.substitutes
    have hrest := hr.substitutes
    rw [hpre, hmid] at hbody
    rw [hall] at hrest
    exact .heading d _ title hbody hrest
  · intro o ho
    rw [hgoals]
    rcases List.mem_cons.1 ho with rfl | ho
    · exact .inl rfl
    · rcases List.mem_append.1 ho with ho | ho
      · exact (hb.under o ho).imp_right fun ⟨e, he, hu⟩ => ⟨e, List.mem_append_left _ he, hu⟩
      · exact (hr.under o ho).imp_right fun ⟨e, he, hu⟩ => ⟨e, List.mem_append_right _ he, hu⟩
  · intro k hk hlt
    have hbody := hb.own k
    have hrest := hr.own k
    rw [hpre, hmid] at hbody
    rw [hall] at hrest
    rw [List.mem_cons, List.mem_append]
    by_cases h : k = (pre.filterMap Visit.entry?).length
    · exact .inl (by rw [h])
    · by_cases h' : k < ((pre ++ v :: ws).filterMap Visit.entry?).length
      · exact .inr (.inl (hbody (by omega) h'))
      · exact .inr (.inr (hrest (by omega) hlt))
  · intro e he o entry' hu ho
    rw [hgoals, List.mem_append] at he
    rw [List.mem_cons, List.mem_append]
    rcases he with he | he
    · exact .inr (.inl (hb.below e he o entry' hu ho))
    · exact .inr (.inr (hr.below e he o entry' hu ho))
  · rw [Outline.sections_heading]
    exact .cons hat (List.rel_append hb.stands hr.stands)

/-- The sections of an embedded document come in the place of the reference to it. -/
theorem embedding {v : Visit} {link path : String} (hD : Outline.Single D) (hv : v.entry? = none)
    (hgoal : s₀.goal? v = some path) (ht : Outline.target? d link = some path)
    (hembeds : Outline.Embeds D d path) (hb : Filled D W s₀ t path outer count)
    (hr : Filling D W s₀ t d outer (count + 1) (pre ++ [v]) vs rest ns os') :
    ∃ ns os, Filling D W s₀ t d outer count pre (v :: vs) (.embedding link :: rest) ns os := by
  obtain ⟨description, ns₁, os₁, last, hlookup, hsub, hunder, hbelow, hstands⟩ := hb
  obtain ⟨title, body, hnodes⟩ := hD d path description hembeds hlookup
  rw [hnodes] at hsub
  cases hsub with
  | @heading _ _ _ _ _ ms ns₂ os₂ os₃ inner _ hbody hnil =>
  cases hnil
  have hpre : ((pre ++ [v]).filterMap Visit.entry?).length =
      (pre.filterMap Visit.entry?).length := by
    simp [List.filterMap_append, hv]
  have hall : pre ++ [v] ++ vs = pre ++ v :: vs := by simp
  refine ⟨.heading none title ms :: ns, (path, 0) :: (os₂ ++ os'), ?_⟩
  rw [List.append_nil] at hunder hbelow hstands
  constructor
  · have hrest := hr.substitutes
    rw [hpre, hall] at hrest
    exact .embedding d _ link ht hlookup hnodes hbody hrest
  · intro o ho
    rw [List.filterMap_cons_some hgoal]
    rw [← List.cons_append, List.mem_append] at ho
    rcases ho with ho | ho
    · exact .inr ⟨path, List.mem_cons_self .., hunder o ho⟩
    · exact (hr.under o ho).imp_right fun ⟨e, he, hu⟩ => ⟨e, List.mem_cons_of_mem _ he, hu⟩
  · intro k hk hlt
    have hrest := hr.own k
    rw [hpre, hall] at hrest
    rw [← List.cons_append]
    exact List.mem_append_right _ (hrest hk hlt)
  · intro e he o entry hu ho
    rw [List.filterMap_cons_some hgoal, List.mem_cons] at he
    rw [← List.cons_append, List.mem_append]
    rcases he with rfl | he
    · exact .inl (hbelow o entry hu ho)
    · exact .inr (hr.below e he o entry hu ho)
  · rw [Outline.sections_heading] at hstands ⊢
    rw [Outline.sections_nil, List.append_nil] at hstands
    exact List.rel_append (R := StandsAt W s₀ t) hstands hr.stands

end Filling

/-- What the visits of a document stand for is put together. -/
theorem exists_filling (hp : Prepared c W s₀) (hD : Outline.Single D) {ds : List NodeDescription}
    (ho : Outline ds) {vs : List Visit} (pre post : List Visit) (hw : (d, pre ++ (vs ++ post)) ∈ W)
    (h : List.Forall₂ (Done D W s₀ d t) vs (Outline.places outer count ds)) :
    ∃ ns os, Filling D W s₀ t d outer count pre vs ds ns os := by
  induction ho generalizing outer count vs pre post with
  | nil =>
    cases h
    exact ⟨[], [], .nil⟩
  | @heading title body rest hb hr ihb ihr =>
    rw [Outline.places_heading] at h
    obtain ⟨v, us, hv, hus, rfl⟩ := List.forall₂_cons_right_iff.1 h
    obtain ⟨ws, xs, rfl, hws, hxs⟩ := forall₂_append_right hus
    cases v with
    | heading f hd entry inner =>
      obtain ⟨ms, os, hbody⟩ :=
        ihb (pre ++ [.heading f hd entry inner]) (xs ++ post) (by simpa using hw) hws
      obtain ⟨ns, os', hrest⟩ :=
        ihr (pre ++ .heading f hd entry inner :: ws) post (by simpa using hw) hxs
      refine ⟨_, _, hbody.heading title rfl rfl ⟨entry, ⟨_, hw, ?_⟩, hv⟩ hrest⟩
      rw [List.filterMap_append, List.getElem?_append_right (Nat.le_refl _), Nat.sub_self,
        List.cons_append, List.filterMap_cons_some (f := Visit.entry?) rfl]
      rfl
    | _ => exact hv.elim
  | @embedding link path rest hl hr ih =>
    rw [Outline.places_embedding] at h
    obtain ⟨v, us, hv, hus, rfl⟩ := List.forall₂_cons_right_iff.1 h
    cases v with
    | embedding f key location link' =>
      obtain ⟨hread, e, hdocument, hembeds, hfilled⟩ := hv
      obtain ⟨ns, os, hrest⟩ :=
        ih (pre ++ [.embedding f key location link']) post (by simpa using hw) hus
      obtain ⟨path', hlink, htarget⟩ := Link.Reads.target? hread hl
      have heq := hp.targetOf_eq hdocument
      rw [hlink] at heq
      obtain rfl : path' = e := heq
      exact hrest.embedding hD rfl hdocument htarget hembeds (hfilled outer count rfl)
    | _ => exact hv.elim

/-- The document that a reference leads to waits at the place of the reference. -/
theorem Placed.awaits {v : Visit} {p : Option String × List Nat} {e : String}
    {info : DocumentInfo} (h : s₀.Placed d t v p) (hg : s₀.goal? v = some e)
    (hp : p.2 = outer ++ [count + 1]) (he : s₀.info? e = some info)
    (hby : info.embeddedBy.isSome) : s₀.Awaits t e outer count := by
  obtain ⟨written, path⟩ := p
  cases v <;> cases written <;> try exact h.elim
  · cases hg
  · obtain ⟨-, document, hdocument, hhanded⟩ := h
    cases hg.symm.trans hdocument
    exact .handed he hby (hp ▸ hhanded)

/-- What lies below a document lies below one that it embeds. -/
theorem Under.cases_child {e : String} (h : s₀.Under d e) : e = d ∨ ∃ child info location,
    s₀.info? child = some info ∧ info.embeddedBy = some (d, location) ∧ s₀.Under child e := by
  induction h with
  | refl => exact .inl rfl
  | inside h he _ ih =>
    rcases ih with rfl | ⟨child, info, location, hchild, hby, hu⟩
    · exact .inr ⟨_, _, _, h, he, .refl⟩
    · exact .inr ⟨child, info, location, hchild, hby, .inside h he hu⟩

end Resolution

namespace Prepared

variable {D : Table Description} {c : Collection} {W : List (String × List Visit)}
  {s₀ t : Resolution} {d e : String} {info : DocumentInfo} {vs : List Visit}

/-- A document that is embedded consists of one section. -/
theorem single (hp : Prepared c W s₀) (hc : c.DescribedBy D) (hD : Outline.Describes D)
    (hone : Outline.Single D) (hd : s₀.info? d = some info) (hby : info.embeddedBy.isSome)
    {description : Description} (hlookup : D.lookup d = some description) :
    ∃ title body, description.nodes = [.heading none title body] := by
  obtain ⟨⟨p, location⟩, hby⟩ := Option.isSome_iff_exists.1 hby
  obtain ⟨outer, -, houter, -⟩ := hp.arranged.embedded d info p location hd hby
  exact hone p d description ((hp.embeds_iff hc hD houter).2 ⟨info, location, hd, hby⟩) hlookup

/-- The requests of a document are for the documents that it embeds. -/
theorem mem_targets_iff (hp : Prepared c W s₀) (hd : s₀.info? d = some info) :
    e ∈ info.requests.filterMap EmbeddingRequest.target ↔
      ∃ info' location, s₀.info? e = some info' ∧ info'.embeddedBy = some (d, location) := by
  constructor
  · intro he
    obtain ⟨r, hr, htarget⟩ := List.mem_filterMap.1 he
    obtain ⟨e', info', htarget', -, hinfo', hby⟩ := hp.arranged.target d info r hd hr
    cases htarget.symm.trans htarget'
    exact ⟨info', r.location, hinfo', hby⟩
  · rintro ⟨info', location, he, hby⟩
    obtain ⟨outer, r, houter, hr, htarget, -⟩ := hp.arranged.embedded e info' d location he hby
    cases hd.symm.trans houter
    exact List.mem_filterMap.2 ⟨r, hr, htarget⟩

/-- The documents that a document embeds have nothing in common. -/
theorem apart_targets (hp : Prepared c W s₀) (hd : s₀.info? d = some info) :
    (info.requests.filterMap EmbeddingRequest.target).Pairwise
      fun a b => ∀ e, s₀.Under a e → ¬s₀.Under b e := by
  obtain ⟨root, -, hrooted⟩ := hp.rooted hd
  have hnodup := hp.arranged.nodup d info hd
  rw [List.Nodup, List.pairwise_map] at hnodup
  rw [List.pairwise_filterMap]
  refine hnodup.imp_of_mem fun {a b} ha hb hne x hx y hy => ?_
  obtain ⟨ia, la, hia, hbya⟩ := (hp.mem_targets_iff hd).1 (List.mem_filterMap.2 ⟨a, ha, hx⟩)
  obtain ⟨ib, lb, hib, hbyb⟩ := (hp.mem_targets_iff hd).1 (List.mem_filterMap.2 ⟨b, hb, hy⟩)
  refine fun e => hrooted.separate hia hib hbya hbyb ?_
  rintro rfl
  exact hne (hx.trans hy.symm)

/-- Where a visit leads to is embedded in the document of the walk. -/
theorem embeddedBy_of_goal (hp : Prepared c W s₀) (hw : (d, vs) ∈ W)
    (he : e ∈ vs.filterMap s₀.goal?) :
    ∃ info location, s₀.info? e = some info ∧ info.embeddedBy = some (d, location) := by
  obtain ⟨v, hv, hg⟩ := List.mem_filterMap.1 he
  cases v with
  | embedding f key location link =>
    obtain ⟨info, hinfo, hby⟩ := hp.embeddedBy_of_visit hw hv hg
    exact ⟨info, location, hinfo, hby⟩
  | _ => cases hg

/-- A visit leads to each document that is embedded. -/
theorem exists_placed (hp : Prepared c W s₀) (hw : (d, vs) ∈ W)
    {ps : List (Option String × List Nat)} (hplaced : List.Forall₂ (s₀.Placed d t) vs ps)
    (he : s₀.info? e = some info) {location : Location} (hby : info.embeddedBy = some (d, location)) :
    ∃ v ∈ vs, s₀.goal? v = some e ∧ ∃ p ∈ ps, s₀.Placed d t v p := by
  obtain ⟨outer, r, houter, hr, htarget, -⟩ := hp.arranged.embedded e info d location he hby
  obtain ⟨outer', houter', -, hrequests⟩ := hp.walk d vs hw
  cases houter.symm.trans houter'
  have hmem := List.mem_map_of_mem (f := fun r : EmbeddingRequest => (r.link, r.location)) hr
  rw [hrequests] at hmem
  obtain ⟨r', hr', heq⟩ := List.mem_map.1 hmem
  obtain ⟨v, hv, hrequest⟩ := List.mem_filterMap.1 hr'
  obtain ⟨p, hmemp, hplace⟩ := exists_of_forall₂ hplaced hv
  refine ⟨v, hv, ?_, p, hmemp, hplace⟩
  cases v with
  | embedding f key location' link =>
    cases hrequest
    obtain ⟨written, path⟩ := p
    cases written with
    | none => exact hplace.elim
    | some written =>
      obtain ⟨-, document, hdocument, -⟩ := hplace
      obtain ⟨e', -, htarget', htargetOf, -⟩ := hp.arranged.target d outer r houter hr
      cases htarget.symm.trans htarget'
      have hlink : link = r.link := congrArg Prod.fst heq
      rw [← hlink, hp.targetOf_eq hdocument] at htargetOf
      exact htargetOf ▸ hdocument
  | _ => cases hrequest

theorem handle?_eq_none (hp : Prepared c W s₀) (d : String) : s₀.handle? d = none := by
  unfold handle?
  cases hd : s₀.info? d with
  | none => rfl
  | some info =>
    rw [Option.bind_some, (hp.info d info hd).2.2]
    rfl

/-- No chain of embeddings is longer than there are documents. -/
theorem bounded_of_chain (hp : Prepared c W s₀) {fuel : Nat} (seen : List String)
    (hnodup : seen.Nodup) (hseen : ∀ p ∈ seen, p ≠ d ∧ p ∈ s₀.documents.keys ∧ s₀.Under p d)
    (hfuel : s₀.documents.length < fuel + seen.length) : s₀.Bounded fuel d := by
  induction fuel generalizing seen d with
  | zero =>
    have hle : seen.length ≤ s₀.documents.keys.length :=
      (List.Nodup.subperm hnodup fun p hp => (hseen p hp).2.1).length_le
    rw [Table.keys, List.length_map] at hle
    omega
  | succ fuel ih =>
    intro info r target hd hr htarget
    obtain ⟨target', info', htarget', -, hinfo', hby⟩ := hp.arranged.target d info r hd hr
    cases htarget.symm.trans htarget'
    obtain ⟨root, -, hrooted⟩ := hp.rooted hd
    refine ih (d :: seen) (List.nodup_cons.2 ⟨fun hmem => (hseen d hmem).1 rfl, hnodup⟩)
      (fun p hmem => ?_) (by rw [List.length_cons]; omega)
    have hchain : p ∈ s₀.documents.keys ∧ s₀.Under p d := by
      rcases List.mem_cons.1 hmem with rfl | hmem
      · exact ⟨Table.mem_keys_iff.2 ⟨info, hd⟩, .refl⟩
      · exact (hseen p hmem).2
    refine ⟨?_, hchain.1, .inside hinfo' hby hchain.2⟩
    rintro rfl
    exact hrooted.not_embeds hchain.2 hinfo' hby

theorem bounded (hp : Prepared c W s₀) (d : String) : s₀.Bounded (s₀.documents.length + 1) d :=
  hp.bounded_of_chain [] .nil (by simp) (by simp)

end Prepared

namespace Resolution

variable {D : Table Description} {c : Collection} {W : List (String × List Visit)}
  {s₀ t t' : Resolution} {U : String → Prop} {d : String} {outer : List Nat} {count : Nat}
  {info : DocumentInfo} {vs : List Visit}

/-- A visit is done with when the document that it leads to is. -/
theorem Placed.done (hp : Prepared c W s₀) (hc : c.DescribedBy D) (hD : Outline.Describes D)
    (hd : s₀.info? d = some info) (hw : (d, vs) ∈ W) {v : Visit} (hv : v ∈ vs)
    {p : Option String × List Nat} (h : s₀.Placed d t v p) (hs : s₀.Spares U t t') (hu : ¬U d)
    (hf : ∀ e ∈ info.requests.filterMap EmbeddingRequest.target, ∀ outer count,
      s₀.Awaits t e outer count → s₀.Filled D W t' e outer count) : Done D W s₀ d t' v p := by
  obtain ⟨written, path⟩ := p
  cases v <;> cases written <;> try exact h.elim
  · obtain ⟨typ, hreg⟩ := hp.registered hw (List.mem_filterMap.2 ⟨_, hv, rfl⟩)
    exact hs.entryAt _ d typ _ hreg hu h
  · obtain ⟨hread, e, hdocument, -⟩ := id h
    obtain ⟨info', hinfo', hby⟩ := hp.embeddedBy_of_visit hw hv hdocument
    refine ⟨hread, e, hdocument, (hp.embeds_iff hc hD hd).2 ⟨info', _, hinfo', hby⟩, ?_⟩
    rintro outer count rfl
    exact hf e ((hp.mem_targets_iff hd).2 ⟨info', _, hinfo', hby⟩) outer count
      (h.awaits hdocument rfl hinfo' (by rw [hby]; rfl))

/-- A whole walk fills its document. -/
theorem Filling.filled (hp : Prepared c W s₀) (hw : (d, vs) ∈ W) {description : Description}
    (hlookup : D.lookup d = some description) {ns : List NodeDescription}
    {os : List (String × Nat)}
    (hf : Filling D W s₀ t d outer count [] vs description.nodes ns os)
    (hgoal : ∀ e info location, s₀.info? e = some info → info.embeddedBy = some (d, location) →
      e ∈ vs.filterMap s₀.goal?) : s₀.Filled D W t d outer count := by
  refine ⟨description, ns, os, _, hlookup, hf.substitutes, fun o ho => ?_, fun o entry hu hs => ?_,
    hf.stands⟩
  · rcases hf.under o ho with rfl | ⟨e, he, hu⟩
    · exact .refl
    · obtain ⟨info, location, hinfo, hby⟩ := hp.embeddedBy_of_goal hw he
      exact Under.trans (.inside hinfo hby .refl) hu
  · rcases hu.cases_child with hd | ⟨e, info, location, hinfo, hby, hu⟩
    · obtain ⟨d', k⟩ := o
      obtain rfl : d' = d := hd
      obtain ⟨vs', hw', hentry⟩ := hs
      cases (hp.lookup_walk hw).symm.trans (hp.lookup_walk hw')
      exact hf.own k (Nat.zero_le k) (List.getElem?_eq_some_iff.1 hentry).1
    · exact hf.below e (hgoal e info location hinfo hby) o entry hu hs

end Resolution

namespace Run

variable {D : Table Description} {c : Collection} {W : List (String × List Visit)}
  {s₀ t : Resolution} {d : String} {outer : List Nat} {count fuel : Nat}

/-- Documents that lie in different places are claimed one after the other, with all that is below
them, each of them as if it were the only one. -/
theorem forest_spec (hp : Prepared c W s₀) {ds : List String}
    (ih : ∀ d ∈ ds, ∀ t outer count, s₀.Able t → s₀.Awaits t d outer count →
      After True ((s₀.below fuel d).forM (claimVisits W)) t fun _ t' =>
        s₀.Able t' ∧ s₀.Spares (s₀.Under d) t t' ∧ s₀.Filled D W t' d outer count)
    (hapart : ds.Pairwise fun a b => ∀ e, s₀.Under a e → ¬s₀.Under b e) (ht : s₀.Able t)
    (ha : ∀ d ∈ ds, ∃ outer count, s₀.Awaits t d outer count) :
    After True ((ds.flatMap (s₀.below fuel)).forM (claimVisits W)) t fun _ t' =>
      s₀.Able t' ∧ s₀.Spares (fun e => ∃ d ∈ ds, s₀.Under d e) t t' ∧
      ∀ d ∈ ds, ∀ outer count, s₀.Awaits t d outer count → s₀.Filled D W t' d outer count := by
  induction ds generalizing t with
  | nil => exact ⟨ht, .refl .., by simp⟩
  | cons d ds ihd =>
    obtain ⟨hd, hds⟩ := List.pairwise_cons.1 hapart
    obtain ⟨outer, count, hawaits⟩ := ha d (List.mem_cons_self ..)
    rw [List.flatMap_cons, After.forM_append]
    refine (ih d (List.mem_cons_self ..) t outer count ht hawaits).mono
      fun _ t₁ ⟨h₁, hspares₁, hfilled₁⟩ => ?_
    -- the other documents have waited
    have hwait : ∀ e ∈ ds, ∀ outer count, s₀.Awaits t e outer count → s₀.Awaits t₁ e outer count :=
      fun e he outer count h => h.spared hspares₁ fun x hx hxd => hd e he x hxd hx
    refine (ihd (fun e he => ih e (List.mem_cons_of_mem d he)) hds h₁ fun e he => ?_).mono
      fun _ t₂ ⟨h₂, hspares₂, hfilled₂⟩ => ⟨h₂, ?_, fun e he outer' count' hawaits' => ?_⟩
    · obtain ⟨outer', count', h⟩ := ha e (List.mem_cons_of_mem d he)
      exact ⟨outer', count', hwait e he outer' count' h⟩
    · refine (hspares₁.mono fun e he => ⟨d, List.mem_cons_self .., he⟩).trans
        (hspares₂.mono fun e ⟨x, hx, he⟩ => ⟨x, List.mem_cons_of_mem d hx, he⟩)
    · rcases List.mem_cons.1 he with rfl | he
      · obtain ⟨rfl, rfl⟩ := hawaits.unique hawaits'
        exact hfilled₁.spared hp hspares₂ fun x hx ⟨y, hy, hxy⟩ => hd y hy x hx hxy
      · exact hfilled₂ e he outer' count' (hwait e he outer' count' hawaits')

/-- A document and all documents below it are claimed: their sections stand at their places in the
outline of all. -/
theorem tree_spec (hp : Prepared c W s₀) (hc : c.DescribedBy D) (hD : Outline.Describes D)
    (hone : Outline.Single D) (hb : s₀.Bounded fuel d) (hd : (s₀.info? d).isSome) (ht : s₀.Able t)
    (ha : s₀.Awaits t d outer count) :
    After True ((s₀.below fuel d).forM (claimVisits W)) t fun _ t' =>
      s₀.Able t' ∧ s₀.Spares (s₀.Under d) t t' ∧ s₀.Filled D W t' d outer count := by
  induction fuel generalizing d t outer count with
  | zero => exact hb.elim
  | succ fuel ih =>
    obtain ⟨info, hd⟩ := Option.isSome_iff_exists.1 hd
    obtain ⟨vs, hw⟩ := hp.exists_walk hd
    obtain ⟨root, -, hrooted⟩ := hp.rooted hd
    obtain ⟨description, hlookup, ho, hm, -⟩ := hp.makes hc hD hd
    rw [below, hd]
    dsimp only
    rw [After.forM_cons]
    refine (claimVisits_awaited hp ht ha hw hd hm fun hby =>
      hp.single hc hD hone hd hby hlookup).mono ?_
    rintro _ t₁ ⟨h₁, hspares₁, hplaced⟩
    have hwait : ∀ e ∈ info.requests.filterMap EmbeddingRequest.target,
        ∃ outer count, s₀.Awaits t₁ e outer count := by
      intro e he
      obtain ⟨info', location, hinfo', hby⟩ := (hp.mem_targets_iff hd).1 he
      obtain ⟨v, -, hg, p, hmem, hplace⟩ := hp.exists_placed hw hplaced hinfo' hby
      obtain ⟨outer', k, hpath⟩ := Outline.exists_snoc_of_mem_places ho hmem
      exact ⟨outer', k, hplace.awaits hg hpath hinfo' (by rw [hby]; rfl)⟩
    refine (forest_spec (D := D) hp (fun e he t' outer' count' ht' ha' => ?_)
      (hp.apart_targets hd) h₁ hwait).mono ?_
    · obtain ⟨info', location, hinfo', -⟩ := (hp.mem_targets_iff hd).1 he
      obtain ⟨r, hr, htarget⟩ := List.mem_filterMap.1 he
      exact ih (hb info r e hd hr htarget) (by rw [hinfo']; rfl) ht' ha'
    rintro _ t₂ ⟨h₂, hspares₂, hfilled⟩
    refine ⟨h₂, ?_, ?_⟩
    · refine (hspares₁.mono fun e he => ?_).trans (hspares₂.mono fun e he => ?_)
      · rcases he with rfl | he
        · exact .refl
        · obtain ⟨info', location, hinfo', hby⟩ := hp.embeddedBy_of_goal hw he
          exact .inside hinfo' hby .refl
      · obtain ⟨x, hx, he⟩ := he
        obtain ⟨info', location, hinfo', hby⟩ := (hp.mem_targets_iff hd).1 hx
        exact Under.trans (.inside hinfo' hby .refl) he
    · have hout : ¬∃ e ∈ info.requests.filterMap EmbeddingRequest.target, s₀.Under e d := by
        rintro ⟨e, he, hu⟩
        obtain ⟨info', location, hinfo', hby⟩ := (hp.mem_targets_iff hd).1 he
        exact hrooted.not_embeds hu hinfo' hby
      have hdone : List.Forall₂ (Done D W s₀ d t₂) vs
          (Outline.places outer count description.nodes) :=
        ((List.forall₂_and_left (p := (· ∈ vs)) ..).2 ⟨fun _ h => h, hplaced⟩).imp
          fun v p h => h.2.done hp hc hD hd hw h.1 hspares₂ hout hfilled
      obtain ⟨ns, os, hfilling⟩ := exists_filling hp hone ho [] []
        (by rwa [List.nil_append, List.append_nil]) hdone
      refine hfilling.filled hp hw hlookup fun e info' location he hby => ?_
      obtain ⟨v, hv, hg, -⟩ := hp.exists_placed hw hplaced he hby
      exact List.mem_filterMap.2 ⟨v, hv, hg⟩

/-- All documents are claimed: below each root, the sections stand at their places. -/
theorem claimAll_filled (hp : Prepared c W s₀) (hc : c.DescribedBy D) (hD : Outline.Describes D)
    (hone : Outline.Single D) :
    After True (s₀.order.forM (claimVisits W)) s₀ fun _ t => ∀ root info,
      s₀.info? root = some info → info.embeddedBy = none → s₀.Filled D W t root [] 0 := by
  have hable : s₀.Able s₀ := by
    refine ⟨.refl s₀, ?_, fun d i hi => ?_, fun d d' i hi => ?_⟩
    · rw [hp.numbering]
      exact .empty
    · rw [hp.handle?_eq_none] at hi
      cases hi
    · rw [hp.handle?_eq_none] at hi
      cases hi
  have hroot : ∀ root ∈ s₀.roots.keys, s₀.roots.lookup root = some [] ∧
      ∃ info, s₀.info? root = some info ∧ info.embeddedBy = none := by
    intro root hmem
    obtain ⟨entries, hentries⟩ := Table.mem_keys_iff.1 hmem
    obtain ⟨rfl, hinfo⟩ := hp.roots root entries hentries
    exact ⟨hentries, hinfo⟩
  have hwait : ∀ root ∈ s₀.roots.keys, s₀.Awaits s₀ root [] 0 := by
    intro root hmem
    obtain ⟨hentries, info, hinfo, hby⟩ := hroot root hmem
    exact .root hinfo hby hentries (hp.handle?_eq_none root)
  have hapart : s₀.roots.keys.Pairwise fun a b => ∀ e, s₀.Under a e → ¬s₀.Under b e := by
    refine hp.sorted.imp_of_mem fun {a b} ha hb hlt e hae hbe => ?_
    obtain ⟨-, ia, hia, hbya⟩ := hroot a ha
    obtain ⟨-, ib, hib, hbyb⟩ := hroot b hb
    have heq := (Rooted.of_under (.top hia hbya) hae).unique (Rooted.of_under (.top hib hbyb) hbe)
    rw [heq] at hlt
    exact String.lt_irrefl b hlt
  refine (forest_spec (D := D) hp (fun d hd t outer count ht ha => ?_) hapart hable
    fun d hd => ⟨[], 0, hwait d hd⟩).mono fun _ t ⟨_, _, hfilled⟩ root info hinfo hby => ?_
  · obtain ⟨-, info, hinfo, -⟩ := hroot d hd
    exact tree_spec hp hc hD hone (hp.bounded d) (by rw [hinfo]; rfl) ht ha
  · obtain ⟨root', -, hrooted, hmem⟩ := hp.root root info hinfo
    obtain rfl := hrooted.unique (.top hinfo hby)
    exact hfilled _ hmem [] 0 (hwait _ hmem)

end Run

end Folio
