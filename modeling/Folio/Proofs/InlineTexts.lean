import Folio.Inline
import Folio.Proofs.Statements
import Mathlib.Data.List.Chain
import Mathlib.Data.List.Forall2
import Mathlib.Data.List.TakeWhile

/-!
# Inline texts are read without loss

An inline text is a row of lexemes (`Inline.Lexes`): runs without an opening brace, directives, a
pair of braces that becomes no directive, with what was matched behind it, and single braces. The
scanner reads the characters one by one and keeps what may still become a directive, so it has to be
shown that it finds the same lexemes. Whenever it gives up a directive, it is as if it had read
plain text all the time (`Inline.scan_back`), and all that is not a directive is gathered in one
token (`Inline.Lexes.scan_eq`).

The parts of a text stand for slices of its lexemes: a text for lexemes that are no directives, as
they are written, and all other parts for one directive (`InlineText.read?_slices`).
-/

namespace Folio

/-! ## Words -/

theorem of_mem_head?_dropWhile {p : Char → Bool} {cs : List Char} {c : Char}
    (h : c ∈ (cs.dropWhile p).head?) : ¬p c := by
  have hnot := List.head?_dropWhile_not p cs
  rw [Option.mem_def.1 h] at hnot
  exact fun hc => Bool.false_ne_true (hnot.symm.trans hc)

namespace Text

variable {cs ds : List Char} {w : List Char} {ws : List (List Char)}

/-- The words of a list of characters. -/
def wordsOf (cs : List Char) : List (List Char) := (cut isBlank cs).filter (· ≠ [])

theorem words_ofList (cs : List Char) :
    words (String.ofList cs) = (wordsOf cs).map String.ofList := by
  simp [words, wordsOf]

theorem wordsOf_append_of_blank (h : ∀ c ∈ cs, isBlank c) : wordsOf (cs ++ ds) = wordsOf ds := by
  induction cs with
  | nil => rfl
  | cons c cs ih =>
    obtain ⟨hc, hcs⟩ := List.forall_mem_cons.1 h
    simpa [wordsOf, cut, hc] using ih hcs

theorem wordsOf_of_blank (h : ∀ c ∈ cs, isBlank c) : wordsOf cs = [] := by
  rw [← List.append_nil cs, wordsOf_append_of_blank h]
  rfl

/-- A word ends where a blank follows it, or nothing. -/
theorem wordsOf_append_of_word (hne : w ≠ []) (hw : ∀ c ∈ w, ¬isBlank c)
    (hds : ∀ c ∈ ds.head?, isBlank c) : wordsOf (w ++ ds) = w :: wordsOf ds := by
  have hone : w.splitOnP isBlank = [w] :=
    List.splitOnP_eq_singleton fun c hc => by simpa using hw c hc
  cases ds with
  | nil => simp [wordsOf, cut_eq_splitOnP, hone, hne]
  | cons d ds =>
    have hd : isBlank d := hds d rfl
    have hcut : cut isBlank (w ++ d :: ds) = w :: cut isBlank ds := by
      rw [cut_eq_splitOnP, cut_eq_splitOnP, List.splitOnP_append_cons _ _ hd, hone,
        List.singleton_append]
    simp [wordsOf, cut, hcut, hd, hne]

/-- Any text is blank up to its first word, which is followed by a blank if anything follows. -/
theorem blank_or_exists_word (cs : List Char) : (∀ c ∈ cs, isBlank c) ∨ ∃ front w back,
    cs = front ++ w ++ back ∧ (∀ c ∈ front, isBlank c) ∧ w ≠ [] ∧ (∀ c ∈ w, ¬isBlank c) ∧
      ∀ c ∈ back.head?, isBlank c := by
  induction cs with
  | nil => exact .inl (by simp)
  | cons c cs ih =>
    by_cases hc : isBlank c
    · rcases ih with hblank | ⟨front, w, back, rfl, hfront, hw⟩
      · exact .inl (List.forall_mem_cons.2 ⟨hc, hblank⟩)
      · exact .inr ⟨c :: front, w, back, rfl, List.forall_mem_cons.2 ⟨hc, hfront⟩, hw⟩
    · refine .inr ⟨[], c :: cs.takeWhile (!isBlank ·), cs.dropWhile (!isBlank ·),
        by simp [List.takeWhile_append_dropWhile], by simp, by simp, ?_, fun d hd => ?_⟩
      · exact List.forall_mem_cons.2 ⟨hc, fun d hd => by simpa using List.mem_takeWhile_imp hd⟩
      · simpa using of_mem_head?_dropWhile hd

theorem wordsOf_eq_nil_iff : wordsOf cs = [] ↔ ∀ c ∈ cs, isBlank c := by
  refine ⟨fun h => ?_, wordsOf_of_blank⟩
  rcases blank_or_exists_word cs with hblank | ⟨front, w, back, rfl, hfront, hne, hw, hback⟩
  · exact hblank
  · rw [List.append_assoc, wordsOf_append_of_blank hfront, wordsOf_append_of_word hne hw hback] at h
    cases h

theorem wordsOf_eq_cons_iff : wordsOf cs = w :: ws ↔ ∃ front back, cs = front ++ w ++ back ∧
    (∀ c ∈ front, isBlank c) ∧ w ≠ [] ∧ (∀ c ∈ w, ¬isBlank c) ∧ (∀ c ∈ back.head?, isBlank c) ∧
      wordsOf back = ws := by
  constructor
  · intro h
    rcases blank_or_exists_word cs with hblank | ⟨front, v, back, rfl, hfront, hne, hv, hback⟩
    · rw [wordsOf_of_blank hblank] at h
      cases h
    · rw [List.append_assoc, wordsOf_append_of_blank hfront,
        wordsOf_append_of_word hne hv hback] at h
      cases h
      exact ⟨front, back, rfl, hfront, hne, hv, hback, rfl⟩
  · rintro ⟨front, back, rfl, hfront, hne, hw, hback, rfl⟩
    rw [List.append_assoc, wordsOf_append_of_blank hfront, wordsOf_append_of_word hne hw hback]

/-- A text of two words, with blanks between them and maybe in front and behind. -/
structure TwoWords (cs : List Char) (first second : String) : Prop where
  exists_blanks : ∃ front between back,
    cs = front ++ first.toList ++ between ++ second.toList ++ back ∧
      (∀ c ∈ front ++ between ++ back, isBlank c) ∧ between ≠ []
  nonempty : first ≠ "" ∧ second ≠ ""
  solid : Avoids isBlank first ∧ Avoids isBlank second

theorem words_eq_pair_iff {first second : String} :
    words (String.ofList cs) = [first, second] ↔ TwoWords cs first second := by
  have hmap : words (String.ofList cs) = [first, second] ↔
      wordsOf cs = [first.toList, second.toList] := by
    rw [words_ofList, ← ofList_map_toList [first, second],
      (List.map_injective_iff.2 fun _ _ => String.ofList_injective).eq_iff]
    rfl
  rw [hmap, wordsOf_eq_cons_iff]
  constructor
  · rintro ⟨front, rest, rfl, hfront, hfirst, hsolid, hrest, hwords⟩
    obtain ⟨between, back, rfl, hbetween, hsecond, hsolid', -, hback⟩ :=
      wordsOf_eq_cons_iff.1 hwords
    refine ⟨⟨front, between, back, by simp, ?_, ?_⟩, ?_, hsolid, hsolid'⟩
    · simpa [or_imp, forall_and] using ⟨hfront, hbetween, wordsOf_eq_nil_iff.1 hback⟩
    · rintro rfl
      obtain ⟨c, cs, hc⟩ := List.exists_cons_of_ne_nil hsecond
      exact hsolid' c (hc ▸ List.mem_cons_self ..) (hrest c (by simp [hc]))
    · simpa [String.toList_eq_nil_iff] using And.intro hfirst hsecond
  · rintro ⟨⟨front, between, back, rfl, hblank, hne⟩, ⟨hfirst, hsecond⟩, hsolid, hsolid'⟩
    simp only [List.mem_append, or_imp, forall_and] at hblank
    obtain ⟨⟨hfront, hbetween⟩, hback⟩ := hblank
    obtain ⟨b, between, rfl⟩ := List.exists_cons_of_ne_nil hne
    refine ⟨front, b :: between ++ second.toList ++ back, by simp, hfront,
      mt String.toList_eq_nil_iff.1 hfirst, hsolid, ?_, ?_⟩
    · simpa using hbetween b (List.mem_cons_self ..)
    · exact wordsOf_eq_cons_iff.2 ⟨b :: between, back, rfl, hbetween,
        mt String.toList_eq_nil_iff.1 hsecond, hsolid',
        fun c hc => hback c (List.mem_of_mem_head? hc), wordsOf_of_blank hback⟩

end Text

namespace Inline

/-! ## Lexemes -/

/-- A piece of an inline text. -/
inductive Lexeme where
  /-- Characters other than an opening brace. -/
  | run (text : List Char)
  /-- What stands in double braces. -/
  | directive (content : List Char)
  /-- Two opening braces that become no directive, and what was matched behind them. -/
  | failed (behind : List Char)
  /-- An opening brace that stands alone. -/
  | brace
  deriving DecidableEq, Repr

namespace Lexeme

/-- How a lexeme is written. -/
def source : Lexeme → List Char
  | run text => text
  | directive content => '\x7b' :: '\x7b' :: content ++ ['\x7d', '\x7d']
  | failed behind => '\x7b' :: '\x7b' :: behind
  | brace => ['\x7b']

def isDirective : Lexeme → Bool
  | directive _ => true
  | _ => false

end Lexeme

/-- Characters that can stand in a directive. -/
def Unbraced (cs : List Char) : Prop := ∀ c ∈ cs, c ≠ '\x7b' ∧ c ≠ '\x7d'

/-- A lexeme can stand in front of the rest of a text. A run goes on to the next opening brace, and
two opening braces fail where no directive goes on, be it in its content or with one closing brace
behind it. -/
inductive Fits : Lexeme → List Char → Prop
  | run {text rest : List Char} (hne : text ≠ []) (h : '\x7b' ∉ text)
      (hrest : ∀ c ∈ rest.head?, c = '\x7b') : Fits (.run text) rest
  | directive {content : List Char} (h : Unbraced content) (rest : List Char) :
      Fits (.directive content) rest
  | opened {content rest : List Char} (h : Unbraced content)
      (hrest : ∀ c ∈ rest.head?, c = '\x7b') : Fits (.failed content) rest
  | closed {content rest : List Char} (h : Unbraced content)
      (hrest : ∀ c ∈ rest.head?, c ≠ '\x7d') : Fits (.failed (content ++ ['\x7d'])) rest
  | brace {rest : List Char} (hrest : ∀ c ∈ rest.head?, c ≠ '\x7b') : Fits .brace rest

/-- A text is a row of lexemes. -/
inductive Lexes : List Char → List Lexeme → Prop
  | nil : Lexes [] []
  | cons {l : Lexeme} {rest : List Char} {ls : List Lexeme} (hl : Fits l rest)
      (h : Lexes rest ls) : Lexes (l.source ++ rest) (l :: ls)

/-- How a row of lexemes is written. -/
def source (ls : List Lexeme) : List Char := ls.flatMap Lexeme.source

variable {l : Lexeme} {ls : List Lexeme} {cs rest : List Char}

theorem source_flatten (slices : List (List Lexeme)) :
    source slices.flatten = slices.flatMap source := by
  rw [source, ← List.flatMap_id', List.flatMap_assoc]
  rfl

theorem Fits.source_ne_nil (h : Fits l rest) : l.source ≠ [] := by
  cases h with
  | run hne => exact hne
  | _ => simp [Lexeme.source]

theorem Lexes.source_eq (h : Lexes cs ls) : source ls = cs := by
  induction h with
  | nil => rfl
  | cons _ _ ih => rw [source, List.flatMap_cons, ← source, ih]

theorem Lexes.source_ne_nil (h : Lexes cs ls) : ∀ l ∈ ls, l.source ≠ [] := by
  induction h with
  | nil => simp
  | cons hl _ ih => exact List.forall_mem_cons.2 ⟨hl.source_ne_nil, ih⟩

theorem head_ne_or_eq_cons (d : Char) :
    ∀ cs : List Char, (∀ c ∈ cs.head?, c ≠ d) ∨ ∃ rest, cs = d :: rest
  | [] => .inl (by simp)
  | c :: cs => by
    by_cases h : c = d
    · exact .inr ⟨cs, by rw [h]⟩
    · exact .inl (by simpa using h)

/-- Behind two opening braces, what can stand in a directive is followed by nothing or a brace. -/
theorem exists_unbraced_append (cs : List Char) : ∃ content rest, cs = content ++ rest ∧
    Unbraced content ∧ ((∀ c ∈ rest.head?, c = '\x7b') ∨ ∃ back, rest = '\x7d' :: back) := by
  let inner : Char → Bool := fun c => c ≠ '\x7b' ∧ c ≠ '\x7d'
  refine ⟨cs.takeWhile inner, cs.dropWhile inner, List.takeWhile_append_dropWhile.symm,
    fun c hc => by simpa [inner] using List.mem_takeWhile_imp hc, ?_⟩
  rcases head_ne_or_eq_cons '\x7d' (cs.dropWhile inner) with hne | hrest
  · refine .inl fun c hc => ?_
    have himp : c ≠ '\x7b' → c = '\x7d' := by simpa [inner] using of_mem_head?_dropWhile hc
    exact not_not.1 fun h => hne c hc (himp h)
  · exact .inr hrest

theorem exists_fits_braces (cs : List Char) :
    ∃ l rest, '\x7b' :: '\x7b' :: cs = l.source ++ rest ∧ Fits l rest := by
  obtain ⟨content, rest, rfl, hcontent, hrest | ⟨back, rfl⟩⟩ := exists_unbraced_append cs
  · exact ⟨.failed content, rest, rfl, .opened hcontent hrest⟩
  · rcases head_ne_or_eq_cons '\x7d' back with hback | ⟨back, rfl⟩
    · exact ⟨.failed (content ++ ['\x7d']), back, by simp [Lexeme.source], .closed hcontent hback⟩
    · exact ⟨.directive content, back, by simp [Lexeme.source], .directive hcontent back⟩

theorem exists_fits (c : Char) (cs : List Char) :
    ∃ l rest, c :: cs = l.source ++ rest ∧ Fits l rest := by
  by_cases hc : c = '\x7b'
  · subst hc
    rcases head_ne_or_eq_cons '\x7b' cs with hcs | ⟨ds, rfl⟩
    · exact ⟨.brace, cs, rfl, .brace hcs⟩
    · exact exists_fits_braces ds
  · have hrun : '\x7b' ∉ c :: cs.takeWhile (· ≠ '\x7b') :=
      List.not_mem_cons_of_ne_of_not_mem (Ne.symm hc) fun h => by
        simpa using List.mem_takeWhile_imp h
    refine ⟨.run (c :: cs.takeWhile (· ≠ '\x7b')), cs.dropWhile (· ≠ '\x7b'),
      by simp [Lexeme.source, List.takeWhile_append_dropWhile],
      .run (by simp) hrun fun d hd => ?_⟩
    simpa using of_mem_head?_dropWhile hd

/-- Every text is a row of lexemes. -/
theorem exists_lexes (cs : List Char) : ∃ ls, Lexes cs ls := by
  induction hn : cs.length using Nat.strong_induction_on generalizing cs with
  | _ n ih =>
    cases cs with
    | nil => exact ⟨[], .nil⟩
    | cons c cs =>
      obtain ⟨l, rest, hcs, hl⟩ := exists_fits c cs
      have hlength : rest.length < n := by
        have hpos := List.length_pos_iff.2 hl.source_ne_nil
        rw [← hn, hcs, List.length_append]
        omega
      obtain ⟨ls, hls⟩ := ih _ hlength rest rfl
      exact ⟨l :: ls, hcs ▸ .cons hl hls⟩

/-! ## The scanner -/

/-- A character with which a possible directive goes on. -/
def Reading.Takes : Reading → Char → Prop
  | .plain, _ => False
  | .brace, c => c = '\x7b'
  | .inside _, c => c ≠ '\x7b'
  | .closing _, c => c = '\x7d'

variable {text : List Char}

/-- A directive that does not go on was plain text all the time. -/
theorem scan_back {reading : Reading} (h : ∀ c ∈ rest.head?, ¬reading.Takes c) :
    scan reading text rest = scan .plain (reading.back ++ text) rest := by
  cases rest with
  | nil => rfl
  | cons c cs =>
    have hc : ¬reading.Takes c := h c rfl
    cases reading with
    | plain => rfl
    | brace =>
      have hne : c ≠ '\x7b' := hc
      simp [scan, Reading.back, hne]
    | inside content =>
      have heq : c = '\x7b' := not_not.1 hc
      simp [scan, Reading.back, heq]
    | closing content =>
      have hne : c ≠ '\x7d' := hc
      by_cases hopen : c = '\x7b' <;> simp [scan, Reading.back, hne, hopen]

theorem scan_run {run : List Char} (h : '\x7b' ∉ run) :
    scan .plain text (run ++ rest) = scan .plain (run.reverse ++ text) rest := by
  induction run generalizing text with
  | nil => rfl
  | cons c run ih =>
    obtain ⟨hc, hrun⟩ := List.ne_and_not_mem_of_not_mem_cons h
    have hplain : scan .plain text (c :: (run ++ rest)) =
        scan .plain (c :: text) (run ++ rest) := by
      simp [scan, Reading.back, hc.symm]
    rw [List.cons_append, hplain, List.reverse_cons, List.append_assoc]
    exact ih hrun

theorem scan_content {content seen : List Char} (h : Unbraced content) :
    scan (.inside seen) text (content ++ rest) =
      scan (.inside (content.reverse ++ seen)) text rest := by
  induction content generalizing seen with
  | nil => rfl
  | cons c content ih =>
    obtain ⟨⟨hopen, hclose⟩, hcontent⟩ := List.forall_mem_cons.1 h
    rw [List.cons_append, scan, if_neg hopen, if_neg hclose, List.reverse_cons, List.append_assoc]
    exact ih hcontent

theorem scan_braces {content : List Char} (h : Unbraced content) :
    scan .plain text ('\x7b' :: '\x7b' :: content ++ rest) =
      scan (.inside content.reverse) text rest := by
  have hopen : scan .plain text ('\x7b' :: '\x7b' :: (content ++ rest)) =
      scan (.inside []) text (content ++ rest) := by simp [scan, Reading.back]
  rw [List.cons_append, List.cons_append, hopen, scan_content h, List.append_nil]

/-- The tokens of lexemes: plain text is gathered up to the next directive. The text so far is
kept backwards. -/
def gather (text : List Char) : List Lexeme → List Token
  | [] => flush text
  | .directive content :: ls => flush text ++ .directive content :: gather [] ls
  | l :: ls => gather (l.source.reverse ++ text) ls

/-- The scanner gathers the lexemes of a text. -/
theorem Lexes.scan_eq (h : Lexes cs ls) : scan .plain text cs = gather text ls := by
  induction h generalizing text with
  | nil => rfl
  | @cons l rest ls hl _ ih =>
    cases hl with
    | run _ h => exact (scan_run h).trans ih
    | directive h rest =>
      rw [Lexeme.source, List.append_assoc, scan_braces h, gather, ← ih]
      simp [scan]
    | @opened content rest h hrest =>
      have hends : ∀ c ∈ rest.head?, ¬(Reading.inside content.reverse).Takes c :=
        fun c hc => not_not.2 (hrest c hc)
      rw [Lexeme.source, scan_braces h, scan_back hends, ih]
      simp [gather, Lexeme.source, Reading.back]
    | @closed content rest h hrest =>
      have hends : ∀ c ∈ rest.head?, ¬(Reading.closing content.reverse).Takes c := hrest
      have hclose : scan (.inside content.reverse) text ('\x7d' :: rest) =
          scan (.closing content.reverse) text rest := by simp [scan]
      rw [Lexeme.source, ← List.cons_append, ← List.cons_append, List.append_assoc, scan_braces h,
        List.singleton_append, hclose, scan_back hends, ih]
      simp [gather, Lexeme.source, Reading.back]
    | @brace rest hrest =>
      have hends : ∀ c ∈ rest.head?, ¬Reading.brace.Takes c := hrest
      have hopen : scan .plain text ('\x7b' :: rest) = scan .brace text rest := by
        simp [scan, Reading.back]
      rw [Lexeme.source, List.singleton_append, hopen, scan_back hends, ih]
      rfl

/-- A third opening brace in front of a directive leaves plain text. -/
example : tokens "\x7b\x7b\x7bref a\x7d\x7d \x7b\x7bref b\x7d\x7d" =
    [.text "\x7b\x7b\x7bref a\x7d\x7d ".toList, .directive "ref b".toList] := by decide

/-! ## Tokens -/

theorem flush_of_ne_nil (h : text ≠ []) : flush text = [.text text.reverse] := if_neg h

theorem directive_mem_flush {content : List Char} : .directive content ∉ flush text := by
  unfold flush
  split <;> simp

theorem directive_mem_gather {content : List Char} :
    .directive content ∈ gather text ls ↔ .directive content ∈ ls := by
  induction ls generalizing text with
  | nil => simpa [gather] using directive_mem_flush
  | cons l ls ih =>
    cases l with
    | directive content' => simp [gather, directive_mem_flush, ih]
    | _ => simp [gather, ih]

/-- A token stands for lexemes: plain text for some that are no directives, and a directive for
itself. -/
inductive Token.StandsFor : Token → List Lexeme → Prop
  | text {ls : List Lexeme} (hne : source ls ≠ []) (h : ∀ l ∈ ls, l.isDirective = false) :
      StandsFor (.text (source ls)) ls
  | directive (content : List Char) : StandsFor (.directive content) [.directive content]

def Token.isText : Token → Bool
  | .text _ => true
  | .directive _ => false

theorem exists_slices_flush (h : ∀ l ∈ ls, l.isDirective = false) (hne : ∀ l ∈ ls, l.source ≠ []) :
    ∃ slices : List (List Lexeme), slices.flatten = ls ∧
      List.Forall₂ Token.StandsFor (flush (source ls).reverse) slices := by
  cases ls with
  | nil => exact ⟨[], rfl, .nil⟩
  | cons l ls =>
    have hsource : source (l :: ls) ≠ [] := by
      simp [source, hne l (List.mem_cons_self ..)]
    refine ⟨[l :: ls], by simp, ?_⟩
    rw [flush_of_ne_nil (by simpa using hsource), List.reverse_reverse]
    exact .cons (.text hsource h) .nil

/-- The tokens stand for slices of the lexemes, in order. The text so far is that of `ls'`. -/
theorem exists_slices_gather (ls' : List Lexeme) (h : ∀ l ∈ ls', l.isDirective = false)
    (hne : ∀ l ∈ ls' ++ ls, l.source ≠ []) : ∃ slices : List (List Lexeme),
      slices.flatten = ls' ++ ls ∧
        List.Forall₂ Token.StandsFor (gather (source ls').reverse ls) slices := by
  induction ls generalizing ls' with
  | nil =>
    rw [List.append_nil] at hne ⊢
    exact exists_slices_flush h hne
  | cons l ls ih =>
    -- A lexeme that is no directive goes to the text so far.
    have hplain (hl : l.isDirective = false) : ∃ slices : List (List Lexeme),
        slices.flatten = ls' ++ l :: ls ∧
          List.Forall₂ Token.StandsFor (gather (l.source.reverse ++ (source ls').reverse) ls)
            slices := by
      have hmem : ∀ m ∈ ls' ++ [l], m.isDirective = false :=
        List.forall_mem_append.2 ⟨h, List.forall_mem_singleton.2 hl⟩
      simpa [source] using ih (ls' ++ [l]) hmem (by simpa using hne)
    cases l with
    | directive content =>
      obtain ⟨hfront, hback⟩ := List.forall_mem_append.1 hne
      obtain ⟨front, rfl, hslices⟩ := exists_slices_flush h hfront
      obtain ⟨back, hflatten, hslices'⟩ := ih [] (by simp)
        (List.forall_mem_cons.1 hback).2
      refine ⟨front ++ [.directive content] :: back, by simp [hflatten], ?_⟩
      exact List.rel_append hslices (.cons (.directive content) hslices')
    | run _ => exact hplain rfl
    | failed _ => exact hplain rfl
    | brace => exact hplain rfl

/-- Text is gathered in one token up to the next directive. -/
theorem isChain_gather : (gather text ls).IsChain fun t u => ¬(t.isText ∧ u.isText) := by
  induction ls generalizing text with
  | nil =>
    unfold gather flush
    split <;> simp
  | cons l ls ih =>
    cases l with
    | directive content =>
      have hback : (.directive content :: gather [] ls).IsChain fun t u : Token =>
          ¬(t.isText ∧ u.isText) := List.isChain_cons.2 ⟨by simp [Token.isText], ih⟩
      unfold gather flush
      split
      · exact hback
      · exact List.isChain_cons.2 ⟨by simp [Token.isText], hback⟩
    | _ => exact ih

end Inline

/-! ## Parts -/

/-- What is written for the part in double braces, as two words. -/
def Part.words? : Part → Option (String × String)
  | .text _ => none
  | .reference _ .label link => some ("ref", link)
  | .reference _ .title link => some ("title", link)
  | .value _ name => some ("value", name)
  | .attribute name => some ("attr", name)
  | .term tag => some ("term", tag)

def Part.isText : Part → Bool
  | .text _ => true
  | _ => false

namespace Inline

def keywords : List String := ["ref", "title", "value", "attr", "term"]

/-- The content of a directive consists of a keyword and one further word. -/
def IsDirective (content : List Char) : Prop :=
  ∃ keyword ∈ keywords, ∃ argument, Text.TwoWords content keyword argument

/-- A part stands for lexemes: a text for some that are no directives, as they are written, and each
other part for a directive with its words. -/
inductive StandsFor : Part → List Lexeme → Prop
  | text {ls : List Lexeme} (hne : source ls ≠ []) (h : ∀ l ∈ ls, l.isDirective = false) :
      StandsFor (.text (String.ofList (source ls))) ls
  | directive {part : Part} {content : List Char} {keyword argument : String}
      (hpart : part.words? = some (keyword, argument))
      (h : Text.TwoWords content keyword argument) : StandsFor part [.directive content]

variable {document : String} {number : Nat} {key : NodeKey} {content : List Char} {part : Part}
  {parts : List Part} {t : Token} {ts : List Token} {slices : List (List Lexeme)}

theorem exists_words_of_directive? (h : directive? key content = .ok part) :
    ∃ keyword argument, part.words? = some (keyword, argument) ∧
      Text.TwoWords content keyword argument := by
  unfold directive? at h
  split at h
  · cases h
  · cases h
  next keyword argument hwords =>
    refine ⟨keyword, argument, ?_, Text.words_eq_pair_iff.1 hwords⟩
    split_ifs at h with hkeyword hkeyword hkeyword hkeyword hkeyword <;> cases h <;>
      rw [hkeyword] <;> rfl
  · cases h

theorem fst_mem_keywords {keyword argument : String}
    (h : part.words? = some (keyword, argument)) : keyword ∈ keywords := by
  unfold Part.words? at h
  split at h <;> cases h <;> decide

theorem exists_directive?_iff (key : NodeKey) :
    (∃ part, directive? key content = .ok part) ↔ IsDirective content := by
  constructor
  · rintro ⟨part, h⟩
    obtain ⟨keyword, argument, hpart, hwords⟩ := exists_words_of_directive? h
    exact ⟨keyword, fst_mem_keywords hpart, argument, hwords⟩
  · rintro ⟨keyword, hkeyword, argument, hwords⟩
    rw [directive?, Text.words_eq_pair_iff.2 hwords]
    simp only [keywords, List.mem_cons, List.not_mem_nil, or_false] at hkeyword
    rcases hkeyword with rfl | rfl | rfl | rfl | rfl <;> exact ⟨_, rfl⟩

theorem exists_part?_iff (key : NodeKey) : (∃ part, t.part? key = .ok part) ↔
    ∀ content, t = .directive content → IsDirective content := by
  cases t with
  | text _ => simp [Token.part?]
  | directive content => simpa [Token.part?] using exists_directive?_iff key

/-- Tokens have parts if the directives among them have. -/
theorem exists_parts?_iff (document : String) (number : Nat) :
    (∃ parts, parts? document number ts = .ok parts) ↔
      ∀ content, .directive content ∈ ts → IsDirective content := by
  induction ts generalizing number with
  | nil => simp [parts?]
  | cons t ts ih =>
    simp only [List.mem_cons, or_imp, forall_and, eq_comm (b := t), parts?_cons_eq_ok_iff]
    rw [← exists_part?_iff ⟨document, number⟩, ← ih (number + 1)]
    constructor
    · rintro ⟨_, part, back, hpart, hback, -⟩
      exact ⟨⟨part, hpart⟩, back, hback⟩
    · rintro ⟨⟨part, hpart⟩, back, hback⟩
      exact ⟨part :: back, part, back, hpart, hback, rfl⟩

theorem standsFor_of_part? {ls : List Lexeme} (h : t.StandsFor ls)
    (hpart : t.part? key = .ok part) : StandsFor part ls := by
  cases h with
  | text hne hplain =>
    cases hpart
    exact .text hne hplain
  | directive content =>
    obtain ⟨keyword, argument, hwords, htwo⟩ := exists_words_of_directive? hpart
    exact .directive hwords htwo

theorem isText_of_part? (h : t.part? key = .ok part) : part.isText = t.isText := by
  cases t with
  | text _ =>
    cases h
    rfl
  | directive content =>
    obtain ⟨keyword, argument, hwords, -⟩ := exists_words_of_directive? h
    cases part with
    | text _ => cases hwords
    | _ => rfl

theorem forall₂_standsFor_of_parts? (h : List.Forall₂ Token.StandsFor ts slices)
    (hparts : parts? document number ts = .ok parts) : List.Forall₂ StandsFor parts slices := by
  induction h generalizing number parts with
  | nil =>
    cases hparts
    exact .nil
  | cons ht _ ih =>
    obtain ⟨part, back, hpart, hback, rfl⟩ := parts?_cons_eq_ok_iff.1 hparts
    exact .cons (standsFor_of_part? ht hpart) (ih hback)

theorem map_isText_of_parts? (h : parts? document number ts = .ok parts) :
    parts.map Part.isText = ts.map Token.isText := by
  induction ts generalizing number parts with
  | nil =>
    cases h
    rfl
  | cons t ts ih =>
    obtain ⟨part, back, hpart, hback, rfl⟩ := parts?_cons_eq_ok_iff.1 h
    rw [List.map_cons, List.map_cons, isText_of_part? hpart, ih hback]

/-- Texts are separated by directives, as the tokens are. -/
theorem isChain_of_parts? (h : parts? document number ts = .ok parts)
    (hts : ts.IsChain fun t u => ¬(t.isText ∧ u.isText)) :
    parts.IsChain fun p q => ¬(p.isText ∧ q.isText) := by
  have hmap := List.isChain_map (R := fun a b : Bool => ¬(a ∧ b)) Token.isText (l := ts)
  rw [← map_isText_of_parts? h, List.isChain_map] at hmap
  exact hmap.2 hts

theorem StandsFor.ne_empty {ls : List Lexeme} (h : StandsFor part ls) : part ≠ .text "" := by
  cases h with
  | text hne _ => simpa using hne
  | directive hpart _ =>
    rintro rfl
    cases hpart

theorem empty_not_mem (h : List.Forall₂ StandsFor parts slices) : .text "" ∉ parts := by
  induction h with
  | nil => exact List.not_mem_nil
  | cons hpart _ ih => exact List.not_mem_cons_of_ne_of_not_mem hpart.ne_empty.symm ih

end Inline

namespace InlineText

open Inline

/-- Every text is a row of lexemes. It is refused exactly if one of them is a directive without two
words, of which the first one is a keyword. Otherwise its parts stand for slices of the lexemes: a
text for lexemes that are no directives, as they are written, and each other part for a directive
with its words. What the slices are written as makes up the whole text, no text is empty, and no two
texts stand next to each other. -/
theorem read?_slices (document : String) (number : Nat) (location : Location) (text : String) :
    (∃ ls, Lexes text.toList ls) ∧ ∀ ls, Lexes text.toList ls →
      ((∃ e, read? document number location text = .error e) ↔
        ∃ content, .directive content ∈ ls ∧ ¬IsDirective content) ∧
      ∀ t, read? document number location text = .ok t →
        (∃ slices : List (List Lexeme), slices.flatten = ls ∧
          List.Forall₂ StandsFor t.parts slices ∧ slices.flatMap source = text.toList) ∧
        .text "" ∉ t.parts ∧ t.parts.IsChain fun p q => ¬(p.isText ∧ q.isText) := by
  refine ⟨exists_lexes _, fun ls hls => ?_⟩
  have htokens : tokens text = gather [] ls := hls.scan_eq
  unfold read?
  rw [htokens]
  constructor
  · have hparts : (∃ parts, parts? document number (gather [] ls) = .ok parts) ↔
        ∀ content, .directive content ∈ ls → IsDirective content := by
      simp only [exists_parts?_iff, directive_mem_gather]
    cases h : parts? document number (gather [] ls) with
    | ok parts => simpa using hparts.1 ⟨parts, h⟩
    | error cause => simpa [h] using hparts
  · intro t ht
    cases h : parts? document number (gather [] ls) with
    | error cause => simp [h] at ht
    | ok parts =>
      obtain rfl : ⟨location, parts⟩ = t := by simpa [h] using ht
      obtain ⟨slices, hflatten, htokens⟩ :=
        exists_slices_gather [] (by simp) hls.source_ne_nil
      have hslices := forall₂_standsFor_of_parts? htokens h
      refine ⟨⟨slices, hflatten, hslices, ?_⟩, empty_not_mem hslices,
        isChain_of_parts? h isChain_gather⟩
      rw [← source_flatten, hflatten, List.nil_append, hls.source_eq]

end InlineText

end Folio
