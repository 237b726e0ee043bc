import PathLedger.Proofs.Expr.Lexemes
import PathLedger.Proofs.Selector.Clauses

/-!
# Filters are read back

A filter is cut at every `&&` and `||`, wherever they stand, and each piece is read as a comparison.

* `Selector.Connective.symbol`, `Selector.Filter.text` — filters as they are written.
* `Selector.Unjoined` — texts in which no connective stands.
* `Selector.partsFrom_append`, `Selector.connective_mem_partsFrom` — the cutting passes a text without connectives, and
  cuts every other one.
* `Selector.Clause.Readable`, `Selector.Filter.parse?_readable` — comparisons that are read back wherever they stand.
* `Selector.Filter.matchesAt_eq` — a filter joins the results of its comparisons from the left.
* `Selector.Filter.read_back` — **filters between plain operands are read back**, and match by their results.
* `Selector.Filter.literal_read_back` — **when a comparison with a quoted text is read back**, and when it matches.
-/

namespace PathLedger.Selector

open Text

/-! ## Written filters -/

/-- How a connective is written. -/
def Connective.symbol : Connective → List Char
  | .and => ['&', '&']
  | .or => ['|', '|']

/-- Further comparisons, each behind its connective, with single spaces around it. -/
def othersText (others : List (Connective × Clause)) : List Char :=
  others.flatMap fun e => ' ' :: e.1.symbol ++ ' ' :: e.2.text

def Filter.text (f : Filter) : List Char := f.first.text ++ othersText f.others

/-- No connective stands in a text. -/
def Unjoined (s : List Char) : Prop := ∀ c : Connective, ¬ c.symbol <:+: s

theorem unjoined_iff {s : List Char} : Unjoined s ↔ ¬ ['&', '&'] <:+: s ∧ ¬ ['|', '|'] <:+: s :=
  ⟨fun h => ⟨h .and, h .or⟩, fun h c => by cases c with | and => exact h.1 | or => exact h.2⟩

instance (s : List Char) : Decidable (Unjoined s) := decidable_of_iff _ unjoined_iff.symm

/-! ## Cutting at connectives -/

section Cutting

variable {s t rest passed : List Char} {d : Char} {parts : List Part}

/-- The characters of connectives. -/
def isJoint (c : Char) : Bool := c == '&' || c == '|'

theorem Connective.not_mem_symbol (k : Connective) (hd : isJoint d = false) : d ∉ k.symbol := by
  intro h
  have hall : k.symbol.all isJoint = true := by cases k <;> decide
  rw [List.all_eq_true.mp hall d h] at hd
  cases hd

/-- A character that is not of a connective separates what is on its two sides. -/
theorem unjoined_append_cons_iff (hd : isJoint d = false) : Unjoined (s ++ d :: t) ↔ Unjoined s ∧ Unjoined t := by
  simp only [Unjoined, infix_append_cons_iff (Connective.not_mem_symbol _ hd), not_or, forall_and]

theorem partsFrom_symbol (passed : List Char) (k : Connective) (rest : List Char) :
    partsFrom passed (k.symbol ++ rest) = pushText passed (.connective k :: partsFrom [] rest) := by
  cases k <;> simp [Connective.symbol, partsFrom]

theorem mem_pushText_of_mem {part : Part} (h : part ∈ parts) : part ∈ pushText passed parts := by
  unfold pushText
  dsimp only
  split
  · exact h
  · exact List.mem_cons_of_mem _ h

/-- The cutting passes a character with which no connective starts. -/
theorem partsFrom_cons {c : Char} (h : ∀ k : Connective, ¬ k.symbol <+: c :: rest) :
    partsFrom passed (c :: rest) = partsFrom (c :: passed) rest := by
  have hand : ∀ r, c = '&' → rest ≠ '&' :: r := by
    rintro r rfl rfl
    exact h .and ⟨r, rfl⟩
  have hor : ∀ r, c = '|' → rest ≠ '|' :: r := by
    rintro r rfl rfl
    exact h .or ⟨r, rfl⟩
  rw [partsFrom]
  · exact fun r hc hr => hand r hc hr
  · exact fun r hc hr => hor r hc hr

/-- What may stand behind a text without connectives: nothing, or a character that is not of a connective. -/
def Parted (rest : List Char) : Prop := ∀ d ∈ rest.head?, isJoint d = false

/-- **The cutting passes a text without connectives.** -/
theorem partsFrom_append (hs : Unjoined s) (hrest : Parted rest) (passed : List Char) :
    partsFrom passed (s ++ rest) = partsFrom (s.reverse ++ passed) rest := by
  induction s generalizing passed with
  | nil => rfl
  | cons c s ih =>
    have htail : Unjoined s := fun k h => hs k (h.trans (List.suffix_cons c s).isInfix)
    have hhere (k : Connective) : ¬ k.symbol <+: c :: s ++ rest := by
      intro h
      refine hs k (List.IsPrefix.isInfix ?_)
      cases rest with
      | nil => rwa [List.append_nil] at h
      | cons d r => exact prefix_of_prefix_append_cons (k.not_mem_symbol (hrest d rfl)) h
    rw [List.cons_append] at hhere ⊢
    rw [partsFrom_cons hhere, ih htail, List.reverse_cons, List.append_assoc]
    rfl

/-- **Every other text is cut.** -/
theorem connective_mem_partsFrom (h : ¬ Unjoined s) (passed : List Char) :
    ∃ k, .connective k ∈ partsFrom passed s := by
  fun_induction partsFrom passed s with
  | case1 => exact absurd (by decide) h
  | case2 passed r => exact ⟨.and, mem_pushText_of_mem List.mem_cons_self⟩
  | case3 passed r => exact ⟨.or, mem_pushText_of_mem List.mem_cons_self⟩
  | case4 passed c r hand hor ih =>
    refine ih fun hr => h fun k hk => ?_
    rcases List.infix_cons_iff.mp hk with ⟨rest, hfront⟩ | hbehind
    · cases k with
      | and =>
        obtain ⟨rfl, hrest⟩ := List.cons.inj hfront
        exact hand rest rfl hrest.symm
      | or =>
        obtain ⟨rfl, hrest⟩ := List.cons.inj hfront
        exact hor rest rfl hrest.symm
    · exact hr k hbehind

end Cutting

/-! ## Readable comparisons -/

/-- Comparisons that are read back from what is written, wherever they stand in a filter. -/
structure Clause.Readable (c : Clause) : Prop where
  left : Operand c.left.toList
  right : Operand c.right.toList
  uncompared : Uncompared c.left.toList.tail
  left_unjoined : Unjoined c.left.toList
  right_unjoined : Unjoined c.right.toList

namespace Clause

variable {c : Clause}

theorem text_eq (c : Clause) : c.text = c.left.toList ++ ' ' :: (c.op.symbol ++ ' ' :: c.right.toList) := by
  rw [text, List.append_assoc, List.cons_append]

theorem operand_text (hleft : Operand c.left.toList) (hright : Operand c.right.toList) : Operand c.text := by
  have h := hleft.append hright (' ' :: c.op.symbol ++ [' '])
  simpa [text] using h

theorem unjoined_text_iff : Unjoined c.text ↔ Unjoined c.left.toList ∧ Unjoined c.right.toList := by
  have hsymbol : Unjoined c.op.symbol := by cases c.op <;> decide
  rw [text_eq, unjoined_append_cons_iff (by decide), unjoined_append_cons_iff (by decide)]
  exact and_congr_right fun _ => and_iff_right hsymbol

theorem Readable.operand (h : c.Readable) : Operand c.text := operand_text h.left h.right

theorem Readable.unjoined (h : c.Readable) : Unjoined c.text :=
  unjoined_text_iff.mpr ⟨h.left_unjoined, h.right_unjoined⟩

theorem Readable.parse? (h : c.Readable) : Clause.parse? c.text = some c :=
  (parse?_text_iff h.left h.right).mpr h.uncompared

end Clause

/-! ## Readable filters -/

section Readable

variable {others : List (Connective × Clause)} {s passed : List Char}

/-- The pieces of further comparisons. -/
def othersParts (others : List (Connective × Clause)) : List Part :=
  others.flatMap fun e => [.connective e.1, .text e.2.text]

theorem parted_othersText (others : List (Connective × Clause)) : Parted (othersText others) := by
  intro d hd
  cases others with
  | nil => cases hd
  | cons e rest =>
    obtain rfl := Option.some.inj hd
    decide

theorem othersText_cons (e : Connective × Clause) (others : List (Connective × Clause)) :
    othersText (e :: others) = ' ' :: (e.1.symbol ++ ' ' :: (e.2.text ++ othersText others)) := by
  simp [othersText]

theorem operand_append_othersText (hs : Operand s) (h : ∀ e ∈ others, e.2.Readable) :
    Operand (s ++ othersText others) := by
  induction others generalizing s with
  | nil => rwa [othersText, List.flatMap_nil, List.append_nil]
  | cons e others ih =>
    obtain ⟨he, hothers⟩ := List.forall_mem_cons.mp h
    have hmore := ih (hs.append he.operand (' ' :: e.1.symbol ++ [' '])) hothers
    rw [othersText_cons]
    simpa using hmore

/-- A text without connectives is a piece of its own. -/
theorem pushText_operand (hs : Operand s) (hpassed : ∀ c ∈ passed, isBlank c) {back : List Char}
    (hback : ∀ c ∈ back, isBlank c) (parts : List Part) :
    pushText (back.reverse ++ s.reverse ++ passed) parts = .text s :: parts := by
  have htrim : trim (back.reverse ++ s.reverse ++ passed).reverse = s := by
    have hfront : ∀ c ∈ passed.reverse, isBlank c := fun c hc => hpassed c (List.mem_reverse.mp hc)
    have h := trim_append_blanks hfront hback s
    simpa [hs.trimmed] using h
  rw [pushText, htrim]
  exact if_neg (by simp [hs.ne_nil])

/-- **The pieces of a filter are its comparisons and connectives in turn.** -/
theorem partsFrom_text (hs : Operand s) (hunjoined : Unjoined s) (h : ∀ e ∈ others, e.2.Readable)
    (hpassed : ∀ c ∈ passed, isBlank c) :
    partsFrom passed (s ++ othersText others) = .text s :: othersParts others := by
  induction others generalizing s passed with
  | nil =>
    rw [partsFrom_append hunjoined (parted_othersText [])]
    exact pushText_operand hs hpassed (List.forall_mem_nil _) []
  | cons e others ih =>
    obtain ⟨he, hothers⟩ := List.forall_mem_cons.mp h
    have hspace : ∀ c ∈ [' '], isBlank c := List.forall_mem_singleton.mpr (by decide)
    have hbehind : partsFrom [] (' ' :: (e.2.text ++ othersText others)) = .text e.2.text :: othersParts others := by
      rw [partsFrom_cons]
      · exact ih he.operand he.unjoined hothers hspace
      · rintro (_ | _) ⟨r, hr⟩ <;> cases hr
    rw [partsFrom_append hunjoined (parted_othersText _), othersText_cons, partsFrom_cons, partsFrom_symbol, hbehind]
    · exact pushText_operand hs hpassed hspace _
    · rintro (_ | _) ⟨r, hr⟩ <;> cases hr

theorem clausesOf_eq_nil {parts : List Part} (h : clausesOf parts = some []) : parts = [] := by
  unfold clausesOf at h
  split at h
  · rfl
  · split at h
    · cases h
    · obtain ⟨others, -, hcons⟩ := Option.map_eq_some_iff.mp h
      cases hcons
  · cases h

theorem clausesOf_othersParts (h : ∀ e ∈ others, e.2.Readable) : clausesOf (othersParts others) = some others := by
  induction others with
  | nil => rfl
  | cons e others ih =>
    obtain ⟨he, hothers⟩ := List.forall_mem_cons.mp h
    show clausesOf (.connective e.1 :: .text e.2.text :: othersParts others) = _
    rw [clausesOf, he.parse?, ih hothers]
    rfl

end Readable

namespace Filter

/-- **A filter of readable comparisons is read back from what is written.** -/
theorem parse?_readable {f : Filter} (h : ∀ c ∈ f.clauses, c.Readable) : parse? f.text = some f := by
  obtain ⟨hfirst, hrest⟩ := List.forall_mem_cons.mp h
  have hothers : ∀ e ∈ f.others, e.2.Readable := fun e he => hrest e.2 (List.mem_map_of_mem he)
  have htrim : trim f.text = f.text := (operand_append_othersText hfirst.operand hothers).trimmed
  have hparts : partsFrom [] f.text = .text f.first.text :: othersParts f.others :=
    partsFrom_text hfirst.operand hfirst.unjoined hothers (List.forall_mem_nil _)
  rw [parse?, htrim, hparts]
  dsimp only
  rw [hfirst.parse?, clausesOf_othersParts hothers]

/-- A single written comparison is read back only when it is readable. -/
theorem parse?_single_iff {c : Clause} (hleft : Operand c.left.toList) (hright : Operand c.right.toList) :
    parse? c.text = some ⟨c, []⟩ ↔ c.Readable := by
  constructor
  · intro h
    have hunjoined : Unjoined c.text := by
      by_contra hjoined
      obtain ⟨k, hk⟩ := connective_mem_partsFrom hjoined []
      -- A filter with a connective has a second comparison.
      rw [parse?, (Clause.operand_text hleft hright).trimmed] at h
      split at h
      · rename_i t rest hparts
        split at h
        · rename_i first others hfirst hothers
          cases h
          rw [clausesOf_eq_nil hothers] at hparts
          rw [hparts] at hk
          simp at hk
        · cases h
      · cases h
    have htext : partsFrom [] (c.text ++ othersText []) = .text c.text :: othersParts [] :=
      partsFrom_text (Clause.operand_text hleft hright) hunjoined (List.forall_mem_nil _)
        (List.forall_mem_nil _)
    rw [othersText, List.flatMap_nil, List.append_nil] at htext
    rw [parse?, (Clause.operand_text hleft hright).trimmed, htext] at h
    have hclause : Clause.parse? c.text = some c := by
      dsimp only at h
      split at h
      · rename_i first others hfirst _
        cases h
        exact hfirst
      · cases h
    obtain ⟨hl, hr⟩ := Clause.unjoined_text_iff.mp hunjoined
    exact ⟨hleft, hright, (Clause.parse?_text_iff hleft hright).mp hclause, hl, hr⟩
  · intro h
    have hback := parse?_readable (f := ⟨c, []⟩) (by simpa [clauses] using h)
    rwa [text, othersText, List.flatMap_nil, List.append_nil] at hback

end Filter

/-! ## Plain operands -/

/-- The characters of comparisons and connectives. -/
def isOperatorChar (c : Char) : Bool := ['<', '>', '=', '!', '&', '|'].contains c

/-- Comparisons between texts without any of these characters. -/
structure Clause.Plain (c : Clause) : Prop where
  left : Operand c.left.toList
  right : Operand c.right.toList
  left_plain : ∀ d ∈ c.left.toList, isOperatorChar d = false
  right_plain : ∀ d ∈ c.right.toList, isOperatorChar d = false

theorem Clause.plain_iff {c : Clause} : c.Plain ↔ (Operand c.left.toList ∧ Operand c.right.toList) ∧
    c.left.toList.all (fun d => !isOperatorChar d) ∧ c.right.toList.all fun d => !isOperatorChar d := by
  simp only [List.all_eq_true, Bool.not_eq_true']
  exact ⟨fun h => ⟨⟨h.1, h.2⟩, h.3, h.4⟩, fun h => ⟨h.1.1, h.1.2, h.2.1, h.2.2⟩⟩

instance (c : Clause) : Decidable c.Plain := decidable_of_iff _ Clause.plain_iff.symm

/-- No symbol stands in a text without its characters. -/
theorem not_infix_of_plain {symbol s : List Char} (hne : symbol ≠ []) (hsymbol : ∀ c ∈ symbol, isOperatorChar c)
    (hs : ∀ c ∈ s, isOperatorChar c = false) : ¬ symbol <:+: s := by
  intro h
  obtain ⟨c, hc⟩ := List.exists_mem_of_ne_nil symbol hne
  have hoperator := hsymbol c hc
  rw [hs c (h.subset hc)] at hoperator
  cases hoperator

theorem uncompared_of_plain {s : List Char} (hs : ∀ c ∈ s, isOperatorChar c = false) : Uncompared s := by
  intro e he
  have hall : Comparison.symbols.all (fun e => e.1.all isOperatorChar) = true := by decide
  have hsymbol := List.all_eq_true.mp (List.all_eq_true.mp hall e he)
  exact not_infix_of_plain (Comparison.symbol_solid e he).1 hsymbol hs

theorem unjoined_of_plain {s : List Char} (hs : ∀ c ∈ s, isOperatorChar c = false) : Unjoined s := by
  intro k
  cases k with
  | and => exact not_infix_of_plain (by decide) (List.all_eq_true.mp (by decide)) hs
  | or => exact not_infix_of_plain (by decide) (List.all_eq_true.mp (by decide)) hs

theorem Clause.Plain.readable {c : Clause} (h : c.Plain) : c.Readable where
  left := h.left
  right := h.right
  uncompared := uncompared_of_plain fun d hd => h.left_plain d (List.mem_of_mem_tail hd)
  left_unjoined := unjoined_of_plain h.left_plain
  right_unjoined := unjoined_of_plain h.right_plain

section Matching

variable {m : Type → Type} [Monad m] [LawfulMonad m] (r : Resolver m) (scope : Path)

/-- The results of further comparisons, each with its connective. -/
def othersHold (others : List (Connective × Clause)) : m (List (Connective × Bool)) :=
  others.mapM fun e => do return (e.1, ← e.2.holdsAt r scope)

/-- A truth value joined with further ones from the left, whatever their connectives. -/
def joinAll (first : Bool) (others : List (Connective × Bool)) : Bool :=
  others.foldl (fun acc e => e.1.join acc e.2) first

theorem joinClauses_eq (acc : Bool) (others : List (Connective × Clause)) :
    joinClauses r scope acc others = joinAll acc <$> othersHold r scope others := by
  induction others generalizing acc with
  | nil => simp [joinClauses, othersHold, joinAll]
  | cons e others ih =>
    obtain ⟨k, c⟩ := e
    simp only [joinClauses, othersHold, List.mapM_cons, bind_assoc, pure_bind, map_bind, map_pure]
    refine bind_congr fun v => ?_
    rw [ih, othersHold, ← bind_pure_comp]
    rfl

/-- **A filter joins the results of its comparisons from the left.** -/
theorem Filter.matchesAt_eq (f : Filter) : f.matchesAt r scope = do
    let first ← f.first.holdsAt r scope
    return joinAll first (← othersHold r scope f.others) := by
  rw [matchesAt]
  refine bind_congr fun first => ?_
  rw [joinClauses_eq, ← bind_pure_comp]

end Matching

/-- **Written filters are read back.** Comparisons between plain operands, joined in any way, are read back from their
text, and a child passes when their results do, joined from the left. -/
theorem Filter.read_back (f : Filter) (h : ∀ c ∈ f.clauses, c.Plain) :
    parse? f.text = some f ∧ ∀ (m : Type → Type) [Monad m] [LawfulMonad m] (r : Resolver m) (scope : Path),
      f.matchesAt r scope = do
        let first ← f.first.holdsAt r scope
        return joinAll first (← othersHold r scope f.others) :=
  ⟨parse?_readable fun c hc => (h c hc).readable, fun _ _ _ r scope => f.matchesAt_eq r scope⟩

/-- Sides with spaces, dots, marks, brackets and a letter beyond the alphabet, joined in both ways. -/
theorem Filter.read_back_joined :
    let f : Filter := ⟨⟨"km a.b", .ge, "[0]['é'] x"⟩, [(.or, ⟨"ü", .ne, "\"gold\""⟩), (.and, ⟨"fuel", .lt, "5 0"⟩)]⟩
    (∀ c ∈ f.clauses, c.Plain) ∧
      parse? "km a.b >= [0]['é'] x || ü != \"gold\" && fuel < 5 0".toList = some f ∧
      f.matchesAt (m := Id) ⟨fun _ => some (.text "gold"), fun _ => none⟩ ⟨["fleet"]⟩ = false := by
  intro f
  have hplain : ∀ c ∈ f.clauses, c.Plain := by decide +kernel
  obtain ⟨hparse, hmatches⟩ := read_back f hplain
  have htext : f.text = "km a.b >= [0]['é'] x || ü != \"gold\" && fuel < 5 0".toList := by decide +kernel
  refine ⟨hplain, htext ▸ hparse, (hmatches Id _ _).trans ?_⟩
  show @Eq Bool _ false
  decide +kernel

/-- Neither connective binds closer than the other. -/
example (a b c : Bool) : joinAll a [(.or, b), (.and, c)] = ((a || b) && c) := rfl

/-! ## Quoted literals -/

/-- The comparison of a path with a text between quotation marks. -/
def literalClause (left : String) (t : List Char) : Clause := ⟨left, .eq, String.ofList ('"' :: t ++ ['"'])⟩

theorem operand_quoted (t : List Char) : Operand ('"' :: t ++ ['"']) :=
  .of_ends rfl (by decide) (List.getLast?_concat) (by decide)

theorem operand_identifier (i : Expr.Identifier) : Operand i.chars := by
  obtain ⟨d, hlast, hd⟩ := i.firm
  exact .of_ends rfl (isBlank_of_isWordChar (isWordChar_of_isWordStart i.head.hfirst)) hlast hd

/-- No symbol starts with the first character of an identifier. -/
theorem uncompared_tail_iff (i : Expr.Identifier) : Uncompared i.chars.tail ↔ Uncompared i.chars := by
  constructor
  · intro h e he hwithin
    rcases List.infix_cons_iff.mp hwithin with hfront | hbehind
    · obtain ⟨c, r, hc⟩ := List.exists_cons_of_ne_nil (Comparison.symbol_solid e he).1
      rw [hc] at hfront
      have hstart := i.head.hfirst
      rw [← (List.cons_prefix_cons.mp hfront).1] at hstart
      have hall : Comparison.symbols.all (fun e => e.1.all fun c => !isWordStart c) = true := by decide
      have hnone := List.all_eq_true.mp (List.all_eq_true.mp hall e he) c (hc ▸ List.mem_cons_self)
      rw [hstart] at hnone
      cases hnone
    · exact h e he hbehind
  · exact fun h e he hwithin => h e he (hwithin.trans (List.tail_suffix i.chars).isInfix)

/-- **A comparison of an identifier with a quoted text** is read back only when no connective stands in the two and no
symbol in the identifier. Then a child passes when a value is read for the identifier that equals the text loosely. -/
theorem Filter.literal_read_back (i : Expr.Identifier) (t : List Char) :
    (parse? (i.chars ++ [' ', '=', '=', ' ', '"'] ++ t ++ ['"']) = some ⟨literalClause i.label t, []⟩ ↔
      Unjoined i.chars ∧ Unjoined t ∧ Uncompared i.chars) ∧
    ∀ (m : Type → Type) [Monad m] [LawfulMonad m] (r : Resolver m) (scope : Path),
      Filter.matchesAt ⟨literalClause i.label t, []⟩ r scope = do
        return (← readSide r scope i.label).any fun v => v.looselyEqual (.text (String.ofList t)) := by
  have hleft : (literalClause i.label t).left.toList = i.chars := i.toList_label
  have hright : (literalClause i.label t).right.toList = '"' :: t ++ ['"'] := String.toList_ofList
  constructor
  · have htext : i.chars ++ [' ', '=', '=', ' ', '"'] ++ t ++ ['"'] = (literalClause i.label t).text := by
      rw [Clause.text, hleft, hright]
      simp [literalClause, Comparison.symbol]
    have hquoted : Unjoined ('"' :: t ++ ['"']) ↔ Unjoined t := by
      have hmark : isJoint '"' = false := by decide
      have hnone : Unjoined [] := by decide
      have hends := (unjoined_append_cons_iff (s := []) (t := t ++ ['"']) hmark).trans
        (and_congr_right fun _ => unjoined_append_cons_iff (t := []) hmark)
      simpa only [hnone, true_and, and_true, List.nil_append, List.cons_append] using hends
    rw [htext, parse?_single_iff (hleft ▸ operand_identifier i) (hright ▸ operand_quoted t), ← uncompared_tail_iff,
      ← hquoted, ← hleft, ← hright]
    exact ⟨fun h => ⟨h.left_unjoined, h.right_unjoined, h.uncompared⟩,
      fun h => ⟨hleft ▸ operand_identifier i, hright ▸ operand_quoted t, h.2.2, h.1, h.2.1⟩⟩
  · intro m _ _ r scope
    have hliteral : literal? (literalClause i.label t).right = some (.text (String.ofList t)) := by
      rw [literal?, hright, (operand_quoted t).trimmed]
      simp [isQuoted, unquote]
    simp only [matchesAt, joinClauses, Clause.holdsAt, hliteral, bind_pure]
    refine bind_congr fun v => ?_
    cases v with
    | none => rfl
    | some v => rfl

/-- A text with a comparison in it. -/
theorem Filter.literal_read_back_compared :
    parse? "f == \"a > b\"".toList = some ⟨⟨"f", .eq, "\"a > b\""⟩, []⟩ ∧
      matchesAt (m := Id) ⟨⟨"f", .eq, "\"a > b\""⟩, []⟩ ⟨fun _ => some (.text "a > b"), fun _ => none⟩ .root =
        true := by
  obtain ⟨hparse, hmatches⟩ := literal_read_back ⟨⟨'f', [], [], by decide, List.forall_mem_nil _⟩, []⟩ "a > b".toList
  refine ⟨hparse.mpr (by decide +kernel), (hmatches Id _ _).trans ?_⟩
  show @Eq Bool _ true
  decide +kernel

/-- **A quoted text is cut at its connectives.** Nothing is read then, or two comparisons. -/
theorem Filter.literal_cut :
    parse? "f == \"a && b\"".toList = none ∧
      parse? "f == \"a || f > b\"".toList = some ⟨⟨"f", .eq, "\"a"⟩, [(.or, ⟨"f", .gt, "b\""⟩)]⟩ := by
  decide +kernel

end PathLedger.Selector
