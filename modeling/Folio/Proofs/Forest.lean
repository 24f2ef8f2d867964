import Folio.Proofs.LabeledNodes
import Folio.Proofs.Resolution.Substitution
import Mathlib.Logic.Relation

/-!
# Embeddings form a forest

A document is the target of at most one request, so following the embeddings upwards there is one
way to go. Where all ways end, each document stands below one root, and the requests lead from the
roots down to every document once (`Resolution.Forest`). Slots are claimed in this order, one
document after the other (`Run.resolveRanges_eq`). Where a way does not end, it comes back, and the
documents it goes round are reported (`Resolution.ReportsCycle`).
-/

namespace Folio

open Resolution

/-! ## Each document once -/

namespace Prepared

variable {c : Collection} {W : List (String × List Visit)} {s : Resolution} {d e root : String}

/-- The targets of the requests of a document are embedded by it. -/
theorem exists_target (hp : Prepared c W s) {info : DocumentInfo} (hd : s.info? d = some info)
    {target : String} (ht : target ∈ info.requests.filterMap EmbeddingRequest.target) :
    ∃ info' location, s.info? target = some info' ∧ info'.embeddedBy = some (d, location) := by
  obtain ⟨r, hr, ht⟩ := List.mem_filterMap.1 ht
  obtain ⟨target', info', ht', -, hinfo', hby⟩ := hp.arranged.target d info r hd hr
  cases ht.symm.trans ht'
  exact ⟨info', r.location, hinfo', hby⟩

theorem under_of_mem_below (hp : Prepared c W s) {fuel : Nat} (h : e ∈ s.below fuel d) :
    s.Under d e ∧ (s.info? e).isSome := by
  induction fuel generalizing d with
  | zero => cases h
  | succ fuel ih =>
    unfold below at h
    cases hd : s.info? d with
    | none => simp [hd] at h
    | some info =>
      rw [hd] at h
      rcases List.mem_cons.1 h with rfl | h
      · exact ⟨.refl, by rw [hd]; rfl⟩
      · obtain ⟨target, ht, h⟩ := List.mem_flatMap.1 h
        obtain ⟨info', location, htarget, hby⟩ := hp.exists_target hd ht
        obtain ⟨hu, he⟩ := ih h
        exact ⟨.trans (.inside htarget hby .refl) hu, he⟩

theorem nodup_below (hp : Prepared c W s) (fuel : Nat) (hr : Rooted s root d) :
    (s.below fuel d).Nodup := by
  induction fuel generalizing d with
  | zero => exact .nil
  | succ fuel ih =>
    unfold below
    cases hd : s.info? d with
    | none => exact .nil
    | some info =>
      refine List.nodup_cons.2 ⟨fun hmem => ?_, List.nodup_flatMap.2 ⟨fun target ht => ?_, ?_⟩⟩
      · obtain ⟨target, ht, hmem⟩ := List.mem_flatMap.1 hmem
        obtain ⟨info', location, htarget, hby⟩ := hp.exists_target hd ht
        exact hr.not_embeds (hp.under_of_mem_below hmem).1 htarget hby
      · obtain ⟨info', location, htarget, hby⟩ := hp.exists_target hd ht
        exact ih (.inside htarget hby hr)
      · have hnodup := hp.arranged.nodup d info hd
        rw [List.Nodup, List.pairwise_map] at hnodup
        rw [List.pairwise_filterMap]
        refine hnodup.imp_of_mem fun {a b} ha hb hne x hx y hy e hex hey => ?_
        have hxy : x ≠ y := fun heq => hne (hx.trans (heq ▸ hy.symm))
        obtain ⟨ix, lx, hix, hbyx⟩ := hp.exists_target hd (List.mem_filterMap.2 ⟨a, ha, hx⟩)
        obtain ⟨iy, ly, hiy, hbyy⟩ := hp.exists_target hd (List.mem_filterMap.2 ⟨b, hb, hy⟩)
        exact hr.separate hix hiy hbyx hbyy hxy (hp.under_of_mem_below hex).1
          (hp.under_of_mem_below hey).1

/-- A document among the roots is one. -/
theorem rooted_self (hp : Prepared c W s) (h : root ∈ s.roots.keys) : Rooted s root root := by
  obtain ⟨entries, hentries⟩ := Table.mem_keys_iff.1 h
  obtain ⟨-, info, hinfo, hby⟩ := hp.roots root entries hentries
  exact .top hinfo hby

theorem nodup_order (hp : Prepared c W s) : s.order.Nodup := by
  refine List.nodup_flatMap.2 ⟨fun root hroot => hp.nodup_below _ (hp.rooted_self hroot), ?_⟩
  refine hp.sorted.imp_of_mem fun {r r'} hr hr' hlt e he he' => ?_
  have hrooted := (hp.rooted_self hr).of_under (hp.under_of_mem_below he).1
  have hrooted' := (hp.rooted_self hr').of_under (hp.under_of_mem_below he').1
  rw [hrooted.unique hrooted'] at hlt
  exact String.lt_irrefl _ hlt

/-- A root comes before all documents below it. -/
theorem pairwise_order (hp : Prepared c W s) : s.order.Pairwise fun a b => ¬Rooted s b a := by
  have hroot : ∀ root ∈ s.roots.keys, ∀ fuel, ∀ a ∈ s.below fuel root, ∀ b, Rooted s b a →
      b = root := fun root hmem fuel a ha b hb =>
    hb.unique ((hp.rooted_self hmem).of_under (hp.under_of_mem_below ha).1)
  refine List.pairwise_flatMap.2 ⟨fun root hmem => ?_, ?_⟩
  · have hnodup := hp.nodup_below (s.documents.length + 1) (hp.rooted_self hmem)
    have hbelow := hroot root hmem (s.documents.length + 1)
    unfold below at hnodup hbelow ⊢
    cases hd : s.info? root with
    | none => exact .nil
    | some info =>
      simp only [hd, List.nodup_cons] at hnodup hbelow ⊢
      refine List.pairwise_cons.2 ⟨fun b hb hrooted => ?_,
        List.pairwise_of_forall_mem_list fun a ha b hb hrooted => ?_⟩
      · exact hnodup.1 (hbelow root (List.mem_cons_self ..) b hrooted ▸ hb)
      · exact hnodup.1 (hbelow a (List.mem_cons_of_mem _ ha) b hrooted ▸ hb)
  · refine hp.sorted.imp_of_mem fun {r r'} hr hr' hlt a ha b hb hrooted => ?_
    obtain rfl := hroot r hr _ a ha b hrooted
    rw [hroot r' hr' _ b hb b (hp.rooted_self hr)] at hlt
    exact String.lt_irrefl _ hlt

theorem mem_order_iff (hp : Prepared c W s) : d ∈ s.order ↔ (s.info? d).isSome := by
  constructor
  · intro h
    obtain ⟨root, -, h⟩ := List.mem_flatMap.1 h
    exact (hp.under_of_mem_below h).2
  · intro h
    obtain ⟨info, hinfo⟩ := Option.isSome_iff_exists.1 h
    exact hp.mem_order (fun root _ => hp.bounded root) hinfo

end Prepared

/-! ## The order of claiming -/

namespace Run

variable {c : Collection} {W : List (String × List Visit)} {s₀ s : Resolution}

/-- Claims the slots of a document, but not those of the documents below it. -/
def claimAlone (document : String) : Run Unit := do
  match (← get).info? document with
  | none => return
  | some info =>
    openRanges document info
    labelWithin ((← get).frames.size + 1) info.frame info.document.nodes

theorem claimAlone_progress (hp : Prepared c W s₀) (hs : s₀.Progress s)
    (hsound : s.numbering.layout.Sound) (document : String) :
    After True (claimAlone document) s fun _ s' =>
      s₀.Progress s' ∧ s'.numbering.layout.Sound := by
  unfold claimAlone
  rw [After.bind_iff, After.get_iff]
  cases hinfo : s.info? document with
  | none => exact ⟨hs, hsound⟩
  | some info =>
    obtain ⟨info₀, hinfo₀, heq⟩ := hs.info_of hinfo
    obtain ⟨vs, hw⟩ := hp.exists_walk hinfo₀
    obtain ⟨info₀', hinfo₀', hwalk, -⟩ := hp.walk document vs hw
    cases hinfo₀.symm.trans hinfo₀'
    have hframe : info.frame = info₀.frame ∧ info.document = info₀.document := by
      rw [heq]
      exact ⟨rfl, rfl⟩
    dsimp only
    rw [hframe.1, hframe.2, After.bind_iff]
    refine (openRanges_progress document info hsound).mono fun _ s₁ ⟨h₁, hsound₁⟩ => ?_
    have hs₁ := hs.trans h₁
    have hwalk₁ := hwalk.keeps hs₁.toKeeps
    rw [After.bind_iff, After.get_iff]
    refine (label_tour.of_visits (R := fun _ => True) hwalk₁ (.inl fun _ => trivial) (Nat.le_refl _)
      (visits_progress hwalk₁.ready hsound₁)).after.mono ?_
    exact fun _ s₂ ⟨_, h₂, hsound₂⟩ => ⟨hs₁.trans h₂, hsound₂⟩

theorem bind_eq_of_eq {α β : Type} {m m' : Run α} {k : α → Run β} (h : m s = m' s) :
    (m >>= k) s = (m' >>= k) s := by
  change EStateM.bind m k s = EStateM.bind m' k s
  rw [EStateM.bind, EStateM.bind, h]

/-- What comes after a step has to agree only where the step leads. -/
theorem bind_eq_of_after {α β : Type} {m : Run α} {k k' : α → Run β}
    (h : After True m s fun a s' => k a s' = k' a s') : (m >>= k) s = (m >>= k') s := by
  change EStateM.bind m k s = EStateM.bind m k' s
  unfold EStateM.bind
  cases hm : m s with
  | ok a s' => exact h.of_ok hm
  | error e s' => rfl

/-- Claims the slots of the document that a request asks for, if there is one. -/
def claimTarget (fuel : Nat) (request : EmbeddingRequest) : Run Unit :=
  match request.target with
  | some target => claimDocument fuel target
  | none => pure ()

theorem claimDocument_of_info {document : String} {info : DocumentInfo}
    (h : s.info? document = some info) (fuel : Nat) : claimDocument (fuel + 1) document s =
      (claimAlone document >>= fun _ =>
        (info.requests.filterMap EmbeddingRequest.target).forM (claimDocument fuel)) s := by
  rw [← forM_filterMap (k := claimTarget fuel) (fun r target ht => by rw [claimTarget, ht])
    (fun r ht => by rw [claimTarget, ht])]
  change (match s.info? document with | none => _ | some info => _ : Run Unit) s =
    ((match s.info? document with | none => _ | some info => _ : Run Unit) >>= _) s
  rw [h]
  unfold openRanges
  simp only [bind_assoc]
  rfl

theorem claimDocuments_eq (hp : Prepared c W s₀) {fuel : Nat} {ds : List String}
    (ih : ∀ d ∈ ds, ∀ s, s₀.Progress s → s.numbering.layout.Sound →
      claimDocument fuel d s = (s₀.below fuel d).forM claimAlone s)
    (hs : s₀.Progress s) (hsound : s.numbering.layout.Sound) :
    ds.forM (claimDocument fuel) s = (ds.flatMap (s₀.below fuel)).forM claimAlone s := by
  induction ds generalizing s with
  | nil => rfl
  | cons d ds ihd =>
    have happend : ((d :: ds).flatMap (s₀.below fuel)).forM claimAlone =
        ((s₀.below fuel d).forM claimAlone >>= fun _ =>
          (ds.flatMap (s₀.below fuel)).forM claimAlone) := List.forM_append
    rw [happend]
    refine (bind_eq_of_eq (ih d (by simp) s hs hsound)).trans ?_
    refine bind_eq_of_after ?_
    refine (After.forM (I := fun s => s₀.Progress s ∧ s.numbering.layout.Sound)
      (fun e _ t ht => claimAlone_progress hp ht.1 ht.2 e) ⟨hs, hsound⟩).mono ?_
    exact fun _ t ht => ihd (fun e he => ih e (by simp [he])) ht.1 ht.2

/-- Claiming a document and all documents below it comes to claiming them one after the other. -/
theorem claimDocument_eq (hp : Prepared c W s₀) (fuel : Nat) (document : String)
    (hb : s₀.Bounded fuel document) (hs : s₀.Progress s) (hsound : s.numbering.layout.Sound) :
    claimDocument fuel document s = (s₀.below fuel document).forM claimAlone s := by
  induction fuel generalizing document s with
  | zero => exact hb.elim
  | succ fuel ih =>
    cases hinfo : s.info? document with
    | none =>
      rw [below, hs.info?_eq_none hinfo]
      change (match s.info? document with | none => _ | some info => _ : Run Unit) s = _
      rw [hinfo]
      rfl
    | some info =>
      obtain ⟨info₀, hinfo₀, heq⟩ := hs.info_of hinfo
      rw [claimDocument_of_info hinfo, below, hinfo₀]
      have hrequests : info.requests = info₀.requests := by rw [heq]
      rw [hrequests]
      refine bind_eq_of_after ((claimAlone_progress hp hs hsound document).mono fun _ t ht => ?_)
      refine claimDocuments_eq hp (fun target htarget t hs hsound => ih target ?_ hs hsound)
        ht.1 ht.2
      obtain ⟨r, hr, ht⟩ := List.mem_filterMap.1 htarget
      exact hb info₀ r target hinfo₀ hr ht

/-- Claiming all roots comes to claiming all documents in order. -/
theorem claimRoots_eq (hp : Prepared c W s₀) :
    s₀.roots.keys.forM (claimDocument (s₀.documents.length + 1)) s₀ =
      s₀.order.forM claimAlone s₀ := by
  have hsound : s₀.numbering.layout.Sound := by
    rw [hp.numbering]
    exact .empty
  exact claimDocuments_eq hp (fun root _ s hs hsound =>
    claimDocument_eq hp _ root (hp.bounded root) hs hsound) (.refl s₀) hsound

/-- Slots are claimed in the order of documents, and then labels are bound. -/
theorem resolveRanges_eq (hp : Prepared c W s₀) : resolveRanges s₀ =
    (s₀.order.forM claimAlone >>= fun _ => bindRoots s₀.roots.keys) s₀ :=
  bind_eq_of_eq (claimRoots_eq hp)

end Run

/-! ## Forests and cycles -/

/-- Documents that are in order: they are embedded at one place or at none, they stand below the
roots, which are not embedded, and the order has each of them once. -/
structure Resolution.Forest (s : Resolution) : Prop where
  targets : ((s.documents.flatMap fun p => p.2.requests).map EmbeddingRequest.target).Nodup
  embedded : ∀ d p, s.EmbeddedIn d p ↔
    ∃ outer r, s.info? p = some outer ∧ r ∈ outer.requests ∧ r.target = some d
  rooted : ∀ d info, s.info? d = some info → ∃ root, info.root = some root ∧ Rooted s root d
  roots : ∀ d, d ∈ s.roots.keys ↔ ∃ info, s.info? d = some info ∧ info.embeddedBy = none
  nodup : s.order.Nodup
  mem : ∀ d, d ∈ s.order ↔ (s.info? d).isSome

theorem Prepared.forest {c : Collection} {W : List (String × List Visit)} {s : Resolution}
    (hp : Prepared c W s) : s.Forest where
  targets := by
    have hascending : s.documents.keys.Pairwise (· < ·) := by
      rw [hp.keys]
      exact hp.ascending
    rw [List.map_flatMap]
    refine List.nodup_flatMap.2 ⟨fun p hmem => ?_, ?_⟩
    · exact hp.arranged.nodup p.1 p.2 (Table.lookup_of_mem hascending hmem)
    · refine (List.pairwise_map.1 hascending).imp_of_mem fun {a b} ha hb hlt t hta htb => ?_
      obtain ⟨ra, hra, rfl⟩ := List.mem_map.1 hta
      obtain ⟨rb, hrb, htarget⟩ := List.mem_map.1 htb
      obtain ⟨d, info, htd, -, hd, hby⟩ :=
        hp.arranged.target a.1 a.2 ra (Table.lookup_of_mem hascending ha) hra
      obtain ⟨d', info', htd', -, hd', hby'⟩ :=
        hp.arranged.target b.1 b.2 rb (Table.lookup_of_mem hascending hb) hrb
      cases (htd'.symm.trans htarget).trans htd
      cases hd.symm.trans hd'
      have heq : (a.1, ra.location) = (b.1, rb.location) := Option.some.inj (hby.symm.trans hby')
      exact String.lt_irrefl b.1 ((Prod.mk.inj heq).1 ▸ hlt)
  embedded d p := by
    rw [embeddedIn_iff]
    constructor
    · rintro ⟨info, location, hd, hby⟩
      obtain ⟨outer, r, houter, hr, ht, -⟩ := hp.arranged.embedded d info p location hd hby
      exact ⟨outer, r, houter, hr, ht⟩
    · rintro ⟨outer, r, houter, hr, ht⟩
      obtain ⟨d', info, ht', -, hd, hby⟩ := hp.arranged.target p outer r houter hr
      cases ht.symm.trans ht'
      exact ⟨info, r.location, hd, hby⟩
  rooted _ _ hd := hp.rooted hd
  roots d := by
    constructor
    · intro h
      obtain ⟨entries, hentries⟩ := Table.mem_keys_iff.1 h
      exact (hp.roots d entries hentries).2
    · rintro ⟨info, hd, hby⟩
      obtain ⟨root, -, hrooted, hmem⟩ := hp.root d info hd
      cases hrooted with
      | top => exact hmem
      | inside hd' hby' =>
        cases hd.symm.trans hd'
        cases hby.symm.trans hby'
  nodup := hp.nodup_order
  mem _ := hp.mem_order_iff

namespace Resolution

variable {s : Resolution} {d p : String}

theorem Under.of_reflTransGen (h : Relation.ReflTransGen s.EmbeddedIn d p) : s.Under p d := by
  induction h using Relation.ReflTransGen.head_induction_on with
  | refl => exact .refl
  | head hde _ ih =>
    obtain ⟨info, location, hd, hby⟩ := embeddedIn_iff.1 hde
    exact .inside hd hby ih

end Resolution

theorem Routed.embeddedIn {s s' : Resolution} (h : Routed s s') {d p : String}
    (hdp : s.EmbeddedIn d p) : s'.EmbeddedIn d p := by
  obtain ⟨info, location, hd, hby⟩ := embeddedIn_iff.1 hdp
  obtain ⟨root, hd'⟩ := h.info d info hd
  exact embeddedIn_iff.2 ⟨_, location, hd', hby⟩

/-- Documents that go round have no root. -/
theorem Rooted.not_transGen {s : Resolution} {root d : String} (h : Rooted s root d) :
    ¬Relation.TransGen s.EmbeddedIn d d := by
  intro hcycle
  obtain ⟨p, hdp, hpd⟩ := Relation.TransGen.head'_iff.1 hcycle
  obtain ⟨info, location, hd, hby⟩ := embeddedIn_iff.1 hdp
  cases h with
  | top hd' hby' =>
    cases hd.symm.trans hd'
    cases hby.symm.trans hby'
  | inside hd' hby' hp =>
    cases hd.symm.trans hd'
    cases hby.symm.trans hby'
    exact hp.not_embeds (.of_reflTransGen hpd) hd hby

/-- Documents that can be put in order form a forest, and slots are claimed along it. Documents that
cannot are reported with a cycle, and as soon as there is one they cannot. -/
theorem Collection.Described.forest_or_cycle {c : Collection} (h : c.Described) {s₁ s₂ : Resolution}
    (h₁ : Run.registerAll (c.documents.map Prod.snd) c.start = .ok () s₁)
    (h₂ : Run.resolveStructure s₁ = .ok () s₂) :
    (∀ s, Run.orderDocuments s₂ = .ok () s → s.Forest ∧ Run.resolveRanges s =
      (s.order.forM Run.claimAlone >>= fun _ => Run.bindRoots s.roots.keys) s) ∧
    ∀ d, Relation.TransGen s₂.EmbeddedIn d d → ∃ location cycle s, Run.orderDocuments s₂ =
      .error (.located location (.structuralCycle cycle)) s ∧ s₂.EmbeddingCycle cycle := by
  obtain ⟨W, hcatalog⟩ := h.registerAll_spec.of_ok h₁
  obtain ⟨ho, ha⟩ := (hcatalog.structure_ends h).of_ok h₂
  have horder := hcatalog.order_ends h ho ha
  refine ⟨fun s hs => ?_, fun d hcycle => ?_⟩
  · obtain ⟨hp, -⟩ := horder.of_ok hs
    exact ⟨hp.forest, Run.resolveRanges_eq hp⟩
  · cases hs : Run.orderDocuments s₂ with
    | error e s =>
      obtain ⟨location, cycle, rfl, hclosed⟩ := horder.of_error hs
      exact ⟨location, cycle, s, rfl, hclosed⟩
    | ok _ s =>
      obtain ⟨hp, hr⟩ := horder.of_ok hs
      obtain ⟨p, hdp, -⟩ := Relation.TransGen.head'_iff.1 hcycle
      obtain ⟨info, location, hd, hby⟩ := embeddedIn_iff.1 hdp
      obtain ⟨root, hd'⟩ := hr.info d info hd
      obtain ⟨root', -, hrooted⟩ := hp.rooted hd'
      exact (hrooted.not_transGen (hcycle.lift id fun _ _ => hr.embeddedIn)).elim

namespace Collection

/-- The targets of requests are found, and leave a state that passes a check. -/
theorem exists_resolveStructure {c : Collection} {P : Resolution → Prop} [DecidablePred P]
    (h : (match Run.registerAll (c.documents.map Prod.snd) c.start with
      | .ok _ s₁ => match Run.resolveStructure s₁ with
        | .ok _ s₂ => decide (P s₂)
        | .error _ _ => false
      | .error _ _ => false) = true) :
    ∃ s₁ s₂, Run.registerAll (c.documents.map Prod.snd) c.start = .ok () s₁ ∧
      Run.resolveStructure s₁ = .ok () s₂ ∧ P s₂ := by
  cases h₁ : Run.registerAll (c.documents.map Prod.snd) c.start with
  | error e s₁ => simp [h₁] at h
  | ok _ s₁ =>
    rw [h₁] at h
    dsimp only at h
    cases h₂ : Run.resolveStructure s₁ with
    | error e s₂ => simp [h₂] at h
    | ok _ s₂ => exact ⟨s₁, s₂, rfl, h₂, by simpa [h₂] using h⟩

/-- The documents `/a` and `/b` embed each other, and `/0` is embedded in one of them. -/
def mutualReference : Collection where
  documents :=
    [("/0", plainDocument "/0" []),
    ("/a", plainDocument "/a"
      [.embedding ⟨"/a", 1⟩ ⟨"/a", 1, 0⟩ "b", .embedding ⟨"/a", 2⟩ ⟨"/a", 2, 0⟩ "0"]),
    ("/b", plainDocument "/b" [.embedding ⟨"/b", 1⟩ ⟨"/b", 1, 0⟩ "a"])]

theorem mutualReference_described : mutualReference.Described where
  sorted := by decide +kernel
  made path d hd := by
    simp only [mutualReference, List.mem_cons, Prod.mk.injEq, List.not_mem_nil, or_false] at hd
    rcases hd with ⟨rfl, rfl⟩ | ⟨rfl, rfl⟩ | ⟨rfl, rfl⟩
    · exact ⟨{}, rfl⟩
    · exact ⟨{ nodes := [.embedding "b", .embedding "0"] }, rfl⟩
    · exact ⟨{ nodes := [.embedding "a"] }, rfl⟩

/-- One collection is a forest, and the cycle of another one is reported. -/
theorem forest_or_cycle_outerReference :
    (∃ s₁ s₂ s, outerReference.Described ∧
      Run.registerAll (outerReference.documents.map Prod.snd) outerReference.start = .ok () s₁ ∧
      Run.resolveStructure s₁ = .ok () s₂ ∧ Run.orderDocuments s₂ = .ok () s ∧ s.Forest) ∧
    ∃ s₁ s₂, mutualReference.Described ∧
      Run.registerAll (mutualReference.documents.map Prod.snd) mutualReference.start = .ok () s₁ ∧
      Run.resolveStructure s₁ = .ok () s₂ ∧ Relation.TransGen s₂.EmbeddedIn "/a" "/a" ∧
      ∃ location cycle s, Run.orderDocuments s₂ =
        .error (.located location (.structuralCycle cycle)) s ∧ s₂.EmbeddingCycle cycle := by
  constructor
  · obtain ⟨s₁, s₂, h₁, h₂, horder⟩ := outerReference.exists_resolveStructure
      (P := fun s₂ => (match Run.orderDocuments s₂ with | .ok _ _ => true | .error _ _ => false) =
        true) (by decide +kernel)
    cases hs : Run.orderDocuments s₂ with
    | error e s => simp [hs] at horder
    | ok _ s =>
      have hforest := ((outerReference_described.forest_or_cycle h₁ h₂).1 s hs).1
      exact ⟨s₁, s₂, s, outerReference_described, h₁, h₂, hs, hforest⟩
  · obtain ⟨s₁, s₂, h₁, h₂, hab, hba⟩ := mutualReference.exists_resolveStructure
      (P := fun s₂ => s₂.embeddedBy? "/a" = some "/b" ∧ s₂.embeddedBy? "/b" = some "/a")
      (by decide +kernel)
    have hcycle : Relation.TransGen s₂.EmbeddedIn "/a" "/a" := .tail (.single hab) hba
    exact ⟨s₁, s₂, mutualReference_described, h₁, h₂, hcycle,
      (mutualReference_described.forest_or_cycle h₁ h₂).2 "/a" hcycle⟩

end Collection

end Folio
