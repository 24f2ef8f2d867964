import Folio.Declaration.Reader
import Folio.Proofs.Numbering.Names
import Folio.Proofs.Pieces

/-!
# Declarations as they are written

`Declaration.read?` reads declarations. A `Declaration.Statement` has what is to be declared in its
parts, and this file writes it down (`Declaration.Statement.text`) and reads it back
(`Declaration.Statement.read?_text`). That rests on texts that are put together with a separator and
cut there again (`Text.pieces_intercalate`, `Text.words_intercalate`), and on levels, which are
numerals behind a mark (`readLevel_writeLevel`).

The head of a statement can be taken in two ways. What stands alone behind the name is a kind,
unless it has the mark of a level in front, which is a separator of kinds as well
(`Declaration.Statement.readHead`).
-/

namespace Folio

namespace Text

/-! ## Pieces with separators between them -/

variable {p : Char → Bool} {σ : Char}

/-- No character of the text satisfies `p`. -/
def Avoids (p : Char → Bool) (s : String) : Prop := ∀ c ∈ s.toList, ¬p c

instance (p : Char → Bool) (s : String) : Decidable (Avoids p s) :=
  List.decidableBAll (fun c => ¬p c) s.toList

namespace Avoids

variable {q : Char → Bool} {s t : String}

theorem mono (h : Avoids p s) (hq : ∀ c, q c → p c) : Avoids q s := fun c hc hqc =>
  h c hc (hq c hqc)

theorem not_mem (h : Avoids p s) (hσ : p σ) : σ ∉ s.toList := fun hmem => h σ hmem hσ

theorem append (h : Avoids p s) (h' : Avoids p t) : Avoids p (s ++ t) :=
  fun c hc => (List.mem_append.1 (String.toList_append ▸ hc)).elim (h c) (h' c)

theorem intercalate {separator : String} (hs : Avoids p separator) {ts : List String}
    (h : ∀ t ∈ ts, Avoids p t) : Avoids p (separator.intercalate ts) := by
  induction ts with
  | nil => simp [Avoids]
  | cons t ts ih =>
    have ht := h t (List.mem_cons_self ..)
    cases ts with
    | nil => rwa [String.intercalate_singleton]
    | cons u ts =>
      rw [String.intercalate_cons_cons]
      exact (ht.append hs).append (ih fun t ht => h t (List.mem_cons_of_mem _ ht))

end Avoids

theorem cut_intercalate (hσ : p σ) {ls : List (List Char)} (hne : ls ≠ [])
    (h : ∀ l ∈ ls, ∀ c ∈ l, ¬p c) : cut p ([σ].intercalate ls) = ls := by
  rw [cut_eq_splitOnP]
  induction ls with
  | nil => exact (hne rfl).elim
  | cons l ls ih =>
    have hl : l.splitOnP p = [l] := List.splitOnP_eq_singleton fun c hc => by
      simpa using h l (List.mem_cons_self ..) c hc
    cases ls with
    | nil => rw [List.intercalate_singleton, hl]
    | cons l' ls =>
      rw [List.intercalate_cons_cons, List.append_assoc, List.singleton_append,
        List.splitOnP_append_cons _ _ hσ, hl,
        ih (by simp) fun l hl => h l (List.mem_cons_of_mem _ hl), List.singleton_append]

theorem words_intercalate {ts : List String} (hne : ts ≠ [])
    (h : ∀ t ∈ ts, t ≠ "" ∧ Avoids isBlank t) : words (" ".intercalate ts) = ts := by
  have hcut : cut isBlank ([' '].intercalate (ts.map String.toList)) = ts.map String.toList := by
    refine cut_intercalate (by decide) (by simpa using hne) ?_
    simpa [Avoids] using fun t ht => (h t ht).2
  have hfull : ∀ l ∈ ts.map String.toList, decide (l ≠ []) = true := by
    simpa using fun t ht => (h t ht).1
  rw [words, String.toList_intercalate, show (" " : String).toList = [' '] from rfl, hcut,
    List.filter_eq_self.2 hfull, ofList_map_toList]

/-! ## Numerals -/

theorem le_ofDigitChars (cs : List Char) (n : Nat) : n ≤ Nat.ofDigitChars 10 cs n := by
  induction cs generalizing n with
  | nil => exact Nat.le_refl n
  | cons c cs ih =>
    rw [Nat.ofDigitChars_cons]
    exact Nat.le_trans (by omega) (ih _)

theorem readDigits_eq {cs : List Char} {n : Nat} (hd : ∀ c ∈ cs, c.isDigit)
    (hlt : Nat.ofDigitChars 10 cs n < numeralBound) :
    readDigits n cs = .ok (Nat.ofDigitChars 10 cs n) := by
  induction cs generalizing n with
  | nil => rfl
  | cons c cs ih =>
    rw [Nat.ofDigitChars_cons] at hlt ⊢
    have hn := Nat.lt_of_le_of_lt (le_ofDigitChars cs _) hlt
    rw [readDigits, if_neg (not_not.2 (hd c (List.mem_cons_self ..)))]
    dsimp only
    rw [if_pos hn, ih (fun c hc => hd c (List.mem_cons_of_mem _ hc)) hlt]

theorem readNumeral_toString {n : Nat} (h : n < numeralBound) :
    readNumeral (toString n) = .ok n := by
  have hd : ∀ c ∈ Nat.toDigits 10 n, c.isDigit := fun c hc =>
    Nat.isDigit_of_mem_toDigits (by decide) (by decide) hc
  have hread : readDigits 0 (Nat.toDigits 10 n) = .ok n := by
    have heq := readDigits_eq (n := 0) hd (by rwa [Nat.ofDigitChars_ten_toDigits])
    rwa [Nat.ofDigitChars_ten_toDigits] at heq
  have hlist : (toString n).toList = Nat.toDigits 10 n := by simp
  rw [readNumeral, hlist]
  split
  next hnil => exact (Nat.toDigits_ne_nil hnil).elim
  next hplus => exact absurd (hd '+' (by simp [hplus])) (by decide)
  next hplus => exact absurd (hd '+' (by simp [hplus])) (by decide)
  next => exact hread

theorem avoids_toString (hp : ∀ c, p c → c.isDigit = false) (n : Nat) : Avoids p (toString n) := by
  intro c hc hpc
  have hlist : (toString n).toList = Nat.toDigits 10 n := by simp
  rw [hlist] at hc
  have hdigit := Nat.isDigit_of_mem_toDigits (by decide) (by decide) hc
  simp [hp c hpc] at hdigit

end Text

open Text

/-! ## Levels -/

/-- A level as it is written, from 1 on. -/
def writeLevel (level : Nat) : String := "#" ++ toString (level + 1)

theorem readLevel_writeLevel (what : String) {level : Nat} (h : level + 1 < numeralBound) :
    readLevel what (writeLevel level) = .ok level := by
  have hlist : (writeLevel level).toList = '#' :: (toString (level + 1)).toList := by
    simp [writeLevel]
  simp only [readLevel, hlist, String.ofList_toList, readNumeral_toString h]

theorem avoids_writeLevel {p : Char → Bool} (hmark : ¬p '#') (hp : ∀ c, p c → c.isDigit = false)
    (level : Nat) : Avoids p (writeLevel level) :=
  Avoids.append (by simpa [Avoids] using hmark) (avoids_toString hp _)

theorem writeLevel_ne_empty (level : Nat) : writeLevel level ≠ "" := by
  simp [writeLevel]

namespace Declaration

/-! ## Statements -/

/-- What is to be declared for a label type. -/
structure Statement where
  name : String
  /-- The kind of the rule, with the separator in front of it. -/
  kind : Option String := none
  level : Option Nat := none
  /-- The master, with the deepest level that is followed. -/
  master : Option (String × Option Nat) := none
  abbreviation : Option String := none
  deriving DecidableEq, Repr

namespace Statement

/-- The name, the kind and the level. -/
def fields (s : Statement) : List String :=
  s.name :: (s.kind.toList ++ (s.level.map writeLevel).toList)

/-- The fields with colons between them. -/
def head (s : Statement) : String := ":".intercalate s.fields

def masterFields (master : String × Option Nat) : List String :=
  master.1 :: (master.2.map writeLevel).toList

def masterArgument (master : String × Option Nat) : String :=
  "master=" ++ ":".intercalate (masterFields master)

def arguments (s : Statement) : List String :=
  (s.master.map masterArgument).toList ++ (s.abbreviation.map ("abbrev=" ++ ·)).toList

/-- The statement as it is written. -/
def text (s : Statement) : String := " ".intercalate (s.head :: s.arguments)

/-- White space, and what stands between the fields of a head. -/
def isBreak (c : Char) : Bool := isBlank c || c == ':'

/-- No part of the statement breaks up when it is written, and levels are not too large. -/
structure WellFormed (s : Statement) : Prop where
  name_ne : s.name ≠ ""
  name : Avoids (fun c => isBreak c || c == '=') s.name
  kind : ∀ kind ∈ s.kind, kind ≠ "" ∧ Avoids isBreak kind
  level : ∀ level ∈ s.level, level + 1 < numeralBound
  master : ∀ master ∈ s.master, Avoids isBreak master.1
  limit : ∀ master ∈ s.master, ∀ limit ∈ master.2, limit + 1 < numeralBound
  abbreviation : ∀ abbreviation ∈ s.abbreviation, Avoids isBlank abbreviation

/-- What the head says: the level, the separator and the rule. A kind with the mark of a level in
front is a level if no level follows. -/
def readHead (s : Statement) : Except DeclarationError (Option Nat × String × Option LabelRule) :=
  match s.kind, s.level with
  | none, level => .ok (level, "", none)
  | some kind, some level => (readRuleKind s.name kind (some level)).map (some level, ·)
  | some kind, none =>
    if kind.toList.head? = some '#' then
      (readLevel "section level" kind).map (some ·, "", none)
    else (readRuleKind s.name kind none).map (none, ·)

/-- What is declared. -/
def declaration? (s : Statement) : Except DeclarationError Declaration :=
  s.readHead.map fun (level, separator, rule) =>
    { name := s.name, rule, level, separator
      abbreviation := s.abbreviation.getD ""
      master := s.master.map Prod.fst
      limit := s.master.bind Prod.snd }

variable {s : Statement}

theorem isBreak_of_isBlank {c : Char} (h : isBlank c) : isBreak c := by
  simp [isBreak, h]

theorem avoids_isBreak_writeLevel (level : Nat) : Avoids isBreak (writeLevel level) := by
  refine avoids_writeLevel (by decide) (fun c hc => ?_) level
  by_contra hdigit
  obtain ⟨hge, hle⟩ : 48 ≤ c.toNat ∧ c.toNat ≤ 57 :=
    Char.isDigit_iff_toNat.1 (by simpa using hdigit)
  rcases Bool.or_eq_true_iff.1 hc with hc | hc
  · simp only [isBlank, Bool.or_eq_true, Bool.and_eq_true, decide_eq_true_eq, beq_iff_eq] at hc
    omega
  · obtain rfl := eq_of_beq hc
    exact absurd hle (by decide)

/-! ## Heads are read back -/

theorem mem_fields (hs : s.WellFormed) {t : String} (ht : t ∈ s.fields) :
    t ≠ "" ∧ Avoids isBreak t := by
  rcases List.mem_cons.1 ht with rfl | ht
  · exact ⟨hs.name_ne, hs.name.mono fun c hc => by simp [hc]⟩
  rcases List.mem_append.1 ht with ht | ht
  · exact hs.kind t (Option.mem_toList.1 ht)
  · obtain ⟨level, -, rfl⟩ := Option.map_eq_some_iff.1 (Option.mem_toList.1 ht)
    exact ⟨writeLevel_ne_empty level, avoids_isBreak_writeLevel level⟩

theorem pieces_head (hs : s.WellFormed) : pieces ':' s.head = s.fields :=
  pieces_intercalate rfl (by simp [fields]) fun _ ht => (mem_fields hs ht).2.not_mem (by decide)

theorem splitHead_head (hs : s.WellFormed) : splitHead s.head = .ok (s.name,
    match s.kind, s.level with
    | none, level => (none, level.map writeLevel)
    | some kind, some level => (some kind, some (writeLevel level))
    | some kind, none =>
      if kind.toList.head? = some '#' then (none, some kind) else (some kind, none)) := by
  have hfull : s.fields.all (· ≠ "") = true :=
    List.all_eq_true.2 fun t ht => by simpa using (mem_fields hs ht).1
  have hname : s.name.toList.contains '=' = false := by
    by_contra h
    exact hs.name '=' (by simpa using h) (by decide)
  unfold splitHead
  dsimp only
  rw [pieces_head hs, hfull, fields, List.headD_cons, hname]
  cases s.kind with
  | none =>
    cases s.level with
    | none => rfl
    | some level => simp [writeLevel]
  | some kind =>
    cases s.level with
    | none => simp; split <;> rfl
    | some level => rfl

/-! ## Arguments are read back -/

theorem splitAssignment_eq (field : String) (h : Avoids (· == '=') field) (value : String) :
    splitAssignment (field ++ "=" ++ value) = some (field, value) := by
  have hlist : (field ++ "=" ++ value).toList = field.toList ++ '=' :: value.toList := by simp
  have hfield : ∀ c ∈ field.toList, decide (c ≠ '=') = true := fun c hc => by
    simpa using h c hc
  rw [splitAssignment, hlist, List.dropWhile_append_of_pos hfield,
    List.takeWhile_append_of_pos hfield]
  simp

theorem avoids_of_mem_masterFields (hs : s.WellFormed) {master : String × Option Nat}
    (hm : s.master = some master) {t : String} (ht : t ∈ masterFields master) :
    Avoids isBreak t := by
  rcases List.mem_cons.1 ht with rfl | ht
  · exact hs.master master hm
  · obtain ⟨level, -, rfl⟩ := Option.map_eq_some_iff.1 (Option.mem_toList.1 ht)
    exact avoids_isBreak_writeLevel level

theorem readArgument_master (hs : s.WellFormed) {master : String × Option Nat}
    (hm : s.master = some master) (index : Nat) (read : Arguments) :
    readArgument index (masterArgument master) read =
      .ok { read with master := some master.1, limit := master.2.or read.limit } := by
  have hpieces : pieces ':' (":".intercalate (masterFields master)) = masterFields master :=
    pieces_intercalate rfl (by simp [masterFields]) fun _ ht =>
      (avoids_of_mem_masterFields hs hm ht).not_mem (by decide)
  have hsplit : splitAssignment (masterArgument master) =
      some ("master", ":".intercalate (masterFields master)) :=
    splitAssignment_eq "master" (by decide) _
  rw [readArgument, hsplit]
  dsimp only
  rw [if_pos rfl, hpieces]
  obtain ⟨name, limit⟩ := master
  cases limit with
  | none => rfl
  | some limit =>
    have hread := readLevel_writeLevel "master limit" (hs.limit _ hm limit rfl)
    simp [masterFields, hread, pure, bind, Except.bind, Except.pure]

theorem readArgument_abbreviation (index : Nat) (abbreviation : String) (read : Arguments) :
    readArgument index ("abbrev=" ++ abbreviation) read = .ok { read with abbreviation } := by
  have hsplit : splitAssignment ("abbrev=" ++ abbreviation) = some ("abbrev", abbreviation) :=
    splitAssignment_eq "abbrev" (by decide) _
  rw [readArgument, hsplit]
  rfl

theorem readArguments_arguments (hs : s.WellFormed) : readArguments 1 {} s.arguments =
    .ok ⟨s.abbreviation.getD "", s.master.map Prod.fst, s.master.bind Prod.snd⟩ := by
  have habbreviation : ∀ (index : Nat) (read : Arguments), read.abbreviation = "" →
      readArguments index read (s.abbreviation.map ("abbrev=" ++ ·)).toList =
        .ok { read with abbreviation := s.abbreviation.getD "" } := by
    intro index read hread
    cases s.abbreviation with
    | none =>
      obtain ⟨_, _, _⟩ := read
      cases hread
      rfl
    | some abbreviation =>
      simp [readArguments, readArgument_abbreviation, bind, Except.bind]
  unfold arguments
  cases hm : s.master with
  | none => exact habbreviation 1 {} rfl
  | some master =>
    simp only [Option.map_some, Option.toList_some, List.singleton_append, readArguments,
      readArgument_master hs hm, bind, Except.bind]
    rw [habbreviation 2 _ rfl]
    simp

/-! ## Statements are read back -/

theorem head_ne_empty (hs : s.WellFormed) : s.head ≠ "" := by
  intro h
  have hpieces := pieces_head hs
  rw [h] at hpieces
  exact hs.name_ne (List.cons.inj hpieces).1.symm

theorem avoids_masterArgument (hs : s.WellFormed) {master : String × Option Nat}
    (hm : s.master = some master) : Avoids isBlank (masterArgument master) := by
  exact .append (by decide) (.intercalate (by decide) fun t ht =>
    (avoids_of_mem_masterFields hs hm ht).mono fun _ => isBreak_of_isBlank)

theorem words_text (hs : s.WellFormed) : words s.text = s.head :: s.arguments := by
  refine words_intercalate (by simp) fun t ht => ?_
  rcases List.mem_cons.1 ht with rfl | ht
  · exact ⟨head_ne_empty hs, .intercalate (by decide) fun t ht =>
      (mem_fields hs ht).2.mono fun _ => isBreak_of_isBlank⟩
  rcases List.mem_append.1 ht with ht | ht
  · obtain ⟨master, hm, rfl⟩ := Option.map_eq_some_iff.1 (Option.mem_toList.1 ht)
    exact ⟨by simp [masterArgument], avoids_masterArgument hs hm⟩
  · obtain ⟨abbreviation, ha, rfl⟩ := Option.map_eq_some_iff.1 (Option.mem_toList.1 ht)
    exact ⟨by simp, .append (by decide) (hs.abbreviation abbreviation ha)⟩

/-- Reading a written statement gives what is to be declared. -/
theorem read?_text (hs : s.WellFormed) : read? s.text = s.declaration? := by
  rw [read?, words_text hs]
  dsimp only
  rw [readArguments_arguments hs, splitHead_head hs, declaration?, readHead]
  have hlevel : ∀ level ∈ s.level,
      readLevel "section level" (writeLevel level) = .ok level := fun level h =>
    readLevel_writeLevel _ (hs.level level h)
  cases hk : s.kind with
  | none =>
    cases hl : s.level with
    | none => rfl
    | some level =>
      simp [hlevel level hl, bind, Except.bind, pure, Except.pure, Except.map]
  | some kind =>
    cases hl : s.level with
    | none =>
      dsimp only
      split
      · cases h : readLevel "section level" kind <;>
          simp [h, bind, Except.bind, pure, Except.pure, Except.map]
      · cases h : readRuleKind s.name kind none <;>
          simp [h, bind, Except.bind, pure, Except.pure, Except.map]
    | some level =>
      cases h : readRuleKind s.name kind (some level) <;>
        simp [h, hlevel level hl, bind, Except.bind, pure, Except.pure, Except.map]

end Statement

end Declaration

end Folio
