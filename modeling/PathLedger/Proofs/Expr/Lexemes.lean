import PathLedger.Proofs.Expr.Labels
import PathLedger.Proofs.Number.Written

/-!
# Lexemes with spaces between them are scanned back

An expression is written as a row of lexemes: parentheses, operators, numbers, reserved words and identifiers. With a
space behind it, or nothing, each lexeme is scanned as one token, whatever stands before it.

* `Expr.Group`, `Expr.Segment`, `Expr.Identifier` — identifiers: words joined by dots, with bracket groups behind them.
* `Expr.Numeral` — digits with a fraction and an exponent.
* `Expr.Lexeme`, `Expr.sentence` — lexemes, and their row with spaces between them.
* `Expr.Continues` — what the scanner takes as the rest of an identifier.
* `Expr.scanWord_identifier`, `Expr.scanNumber?_numeral` — identifiers and numbers are scanned whole.
* `Expr.scanToken?_lexeme` — **a lexeme is scanned as one token**.
* `Expr.tokenize_sentence` — **a sentence has the tokens of its lexemes, and refers to its identifiers**.
-/

namespace PathLedger.Expr

open Text

/-! ## Identifiers -/

/-- A bracket group of an identifier: a text between two quotation marks that does not hold the mark, or a text that
starts with none and holds no closing bracket. -/
inductive Group where
  | quoted (mark : Char) (text : List Char) (hmark : Path.isQuote mark) (htext : mark ∉ text)
  | bare (first : Char) (rest : List Char) (hfirst : Path.isQuote first = false) (hclosing : ']' ∉ first :: rest)

/-- A bracket group behind its bracket. -/
def Group.body : Group → List Char
  | .quoted mark text _ _ => mark :: text ++ [mark, ']']
  | .bare first rest _ _ => first :: rest ++ [']']

def Group.chars (g : Group) : List Char := '[' :: g.body

/-- A word with bracket groups behind it. -/
structure Segment where
  first : Char
  rest : List Char
  groups : List Group
  hfirst : isWordStart first
  hrest : ∀ c ∈ rest, isWordChar c

def Segment.chars (s : Segment) : List Char := s.first :: s.rest ++ s.groups.flatMap Group.chars

/-- Segments with dots between them. -/
structure Identifier where
  head : Segment
  tail : List Segment

def Identifier.chars (i : Identifier) : List Char := i.head.chars ++ i.tail.flatMap fun s => '.' :: s.chars

def Identifier.label (i : Identifier) : String := String.ofList i.chars

theorem Identifier.toList_label (i : Identifier) : i.label.toList = i.chars := String.toList_ofList

/-! ## Numbers -/

/-- The exponent of a number, with one of its two marks and with a sign or without. -/
structure Exponent where
  mark : Char
  /-- Whether the sign is a minus, when there is one. -/
  sign : Option Bool
  digits : List Char
  hmark : mark = 'e' ∨ mark = 'E'
  hdigits : ∀ c ∈ digits, isDigit c
  hsome : digits ≠ []

/-- A sign, when there is one. -/
def signChars : Option Bool → List Char
  | none => []
  | some negative => [if negative then '-' else '+']

def Exponent.chars (e : Exponent) : List Char := e.mark :: (signChars e.sign ++ e.digits)

/-- A number: digits, a point with more of them, and an exponent. -/
structure Numeral where
  whole : List Char
  fraction : Option (List Char)
  exponent : Option Exponent
  hwhole : ∀ c ∈ whole, isDigit c
  hsome : whole ≠ []
  hfraction : ∀ ds ∈ fraction, ∀ c ∈ ds, isDigit c

def Numeral.chars (n : Numeral) : List Char :=
  n.whole ++ (Decimal.fractionChars n.fraction ++ n.exponent.elim [] Exponent.chars)

/-- The pieces of a number. An exponent without a sign counts as positive. -/
def Numeral.pieces (n : Numeral) : Decimal.Pieces :=
  ⟨n.whole, n.fraction, n.exponent.map fun e => (e.sign.getD false, e.digits)⟩

def Numeral.value (n : Numeral) : Binary64 := (n.pieces.toDecimal false).toBinary64

/-! ## Lexemes -/

inductive Lexeme where
  | opening
  | closing
  | not
  | operator (o : Binary)
  | number (n : Numeral) (hfinite : n.value.isFinite)
  | reserved (word : String) (v : Value) (hword : reservedWord? word = some v)
  | identifier (i : Identifier) (hfree : reservedWord? i.label = none)

namespace Lexeme

def chars : Lexeme → List Char
  | .opening => ['(']
  | .closing => [')']
  | .not => ['!']
  | .operator o => o.symbol.toList
  | .number n _ => n.chars
  | .reserved word _ _ => word.toList
  | .identifier i _ => i.chars

/-- The token that a lexeme stands for. -/
def token : Lexeme → Token
  | .opening => .opening
  | .closing => .closing
  | .not => .not
  | .operator o => .operator o
  | .number n _ => .literal (.number n.value)
  | .reserved _ v _ => .literal v
  | .identifier i _ => .identifier i.label

/-- The text of an identifier. -/
def label? : Lexeme → Option String
  | .identifier i _ => some i.label
  | _ => none

theorem token_label? (l : Lexeme) : l.token.label? = l.label? := by
  cases l <;> rfl

end Lexeme

/-- Lexemes with a space between any two of them. -/
def sentence (lexemes : List Lexeme) : List Char := joinWith ' ' (lexemes.map Lexeme.chars)

/-- What may stand behind a lexeme: a space, or nothing at all. -/
def Ends (rest : List Char) : Prop := rest = [] ∨ ∃ r, rest = ' ' :: r

/-! ## Scanning identifiers -/

/-- A bracket group is scanned whole, whatever stands behind it. -/
theorem scanGroup?_body (g : Group) (rest : List Char) : scanGroup? (g.body ++ rest) = some (g.body, rest) := by
  cases g with
  | quoted mark text hmark htext =>
    obtain ⟨htake, hdrop⟩ := takeWhile_ne htext (']' :: rest)
    have hquoted : scanQuotedGroup? (mark :: (text ++ mark :: ']' :: rest)) =
        some (mark :: text ++ [mark, ']'], rest) := by
      simp [scanQuotedGroup?, hmark, htake, hdrop]
    rw [Group.body, List.append_assoc]
    simp only [scanGroup?, List.cons_append, List.nil_append] at hquoted ⊢
    rw [hquoted]
  | bare first text hfirst hclosing =>
    obtain ⟨htake, hdrop⟩ := takeWhile_ne hclosing rest
    have hplain : scanQuotedGroup? (first :: (text ++ ']' :: rest)) = none := by
      simp [scanQuotedGroup?, hfirst]
    rw [Group.body, List.append_assoc]
    simp only [scanGroup?, List.cons_append, List.nil_append] at htake hdrop ⊢
    rw [hplain]
    simp [scanPlainGroup?, htake, hdrop]

/-- In front of the rest, the scanner takes a text as what continues an identifier. The length of the text bounds the
number of its pieces, since each of them has a character at least. -/
structure Continues (taken rest : List Char) : Prop where
  word : (taken ++ rest).takeWhile isWordChar = []
  tail : ∀ n, taken.length ≤ n → identifierTail n (taken ++ rest) = (taken, rest)

namespace Continues

variable {taken rest : List Char}

theorem nil (h : Ends rest) : Continues [] rest := by
  rcases h with rfl | ⟨r, rfl⟩
  · exact ⟨rfl, fun n _ => by cases n <;> rfl⟩
  · exact ⟨rfl, fun n _ => by cases n <;> rfl⟩

theorem group (h : Continues taken rest) (g : Group) : Continues (g.chars ++ taken) rest where
  word := rfl
  tail := by
    intro n hn
    rw [Group.chars, List.cons_append, List.length_cons, List.length_append] at hn
    obtain ⟨k, rfl⟩ : ∃ k, n = k + 1 := ⟨n - 1, by omega⟩
    have htail := h.tail k (by omega)
    rw [Group.chars, List.cons_append, List.cons_append, List.append_assoc, identifierTail]
    simp only [scanGroup?_body, htail, List.cons_append]

theorem groups (h : Continues taken rest) (groups : List Group) :
    Continues (groups.flatMap Group.chars ++ taken) rest := by
  induction groups with
  | nil => exact h
  | cons g groups ih =>
    rw [List.flatMap_cons, List.append_assoc]
    exact ih.group g

/-- A dot with a word behind it. -/
theorem word_behind_dot (h : Continues taken rest) {first : Char} {word : List Char} (hfirst : isWordStart first)
    (hword : ∀ c ∈ word, isWordChar c) : Continues ('.' :: first :: word ++ taken) rest where
  word := rfl
  tail := by
    intro n hn
    rw [List.cons_append, List.cons_append, List.length_cons, List.length_cons, List.length_append] at hn
    obtain ⟨k, rfl⟩ : ∃ k, n = k + 1 := ⟨n - 1, by omega⟩
    have htail := h.tail k (by omega)
    simp only [List.cons_append, List.append_assoc, identifierTail, hfirst, if_true, dropWhile_front hword h.word,
      takeWhile_front hword h.word, htail]

theorem segments (h : Ends rest) (segments : List Segment) :
    Continues (segments.flatMap fun s => '.' :: s.chars) rest := by
  induction segments with
  | nil => exact nil h
  | cons s segments ih =>
    have hstep := (ih.groups s.groups).word_behind_dot s.hfirst s.hrest
    simpa only [List.flatMap_cons, Segment.chars, List.cons_append, List.append_assoc] using hstep

end Continues

/-- The token of a word: its text is reserved, or a label. -/
def wordToken (label : String) : Token :=
  match reservedWord? label with
  | some v => .literal v
  | none => .identifier label

/-- **An identifier is scanned whole.** -/
theorem scanWord_identifier (i : Identifier) {rest : List Char} (h : Ends rest) :
    scanWord (i.chars ++ rest) = (wordToken i.label, rest) := by
  obtain ⟨head, tail⟩ := i
  have hword : ∀ c ∈ head.first :: head.rest, isWordChar c :=
    List.forall_mem_cons.mpr ⟨isWordChar_of_isWordStart head.hfirst, head.hrest⟩
  have hmore := (Continues.segments h tail).groups head.groups
  have htext : Identifier.chars ⟨head, tail⟩ =
      head.first :: head.rest ++ (head.groups.flatMap Group.chars ++ tail.flatMap fun s => '.' :: s.chars) := by
    rw [Identifier.chars, Segment.chars, List.append_assoc]
  rw [Identifier.label, htext]
  generalize head.groups.flatMap Group.chars ++ tail.flatMap (fun s => '.' :: s.chars) = more at hmore
  have htail := hmore.tail (head.first :: head.rest ++ (more ++ rest)).length (by
    simp only [List.length_append]
    omega)
  rw [List.append_assoc]
  unfold scanWord wordToken
  rw [takeWhile_front hword hmore.word, dropWhile_front hword hmore.word, htail]
  dsimp only
  cases reservedWord? (String.ofList (head.first :: head.rest ++ more)) <;> rfl

/-- Every reserved word is spelled as an identifier. -/
theorem exists_label_of_reserved {word : String} {v : Value} (h : reservedWord? word = some v) :
    ∃ i : Identifier, i.label = word := by
  have hmem : word = "true" ∨ word = "false" ∨ (word = "null" ∨ word = "undefined") ∨ word = "NaN" ∨
      word = "Infinity" := by
    by_contra hnone
    simp only [not_or] at hnone
    simp [reservedWord?, hnone] at h
  have hspelled : ∃ c r, word.toList = c :: r ∧ isWordStart c ∧ ∀ d ∈ r, isWordChar d := by
    rcases hmem with rfl | rfl | (rfl | rfl) | rfl | rfl <;> exact ⟨_, _, rfl, rfl, List.all_eq_true.mp rfl⟩
  obtain ⟨c, r, htext, hc, hr⟩ := hspelled
  refine ⟨⟨⟨c, r, [], hc, hr⟩, []⟩, ?_⟩
  simp [Identifier.label, Identifier.chars, Segment.chars, ← htext]

/-! ## Scanning numbers -/

theorem scanSign_signChars (sign : Option Bool) {digits : List Char} (hdigits : ∀ c ∈ digits, isDigit c)
    (hsome : digits ≠ []) (rest : List Char) :
    Decimal.scanSign (signChars sign ++ digits ++ rest) = (sign.getD false, digits ++ rest) := by
  cases sign with
  | some negative => exact Decimal.scanSign_exponent negative (digits ++ rest)
  | none =>
    obtain ⟨d, ds, rfl⟩ := List.exists_cons_of_ne_nil hsome
    have hd := hdigits d List.mem_cons_self
    have hminus : d ≠ '-' := by rintro rfl; exact absurd hd (by decide)
    have hplus : d ≠ '+' := by rintro rfl; exact absurd hd (by decide)
    simp [signChars, Decimal.scanSign, hminus, hplus]

/-- A number is scanned into its pieces. -/
theorem scan_numeral (n : Numeral) {rest : List Char} (h : Ends rest) :
    Decimal.scan (n.chars ++ rest) = (n.pieces, rest) := by
  have hdigit : rest.takeWhile isDigit = [] := by
    rcases h with rfl | ⟨r, rfl⟩ <;> rfl
  obtain ⟨whole, fraction, exponent, hwhole, -, hfraction⟩ := n
  cases exponent with
  | none =>
    have hmark : ∀ c ∈ rest.head?, c ≠ '.' ∧ c ≠ 'e' ∧ c ≠ 'E' := by
      rcases h with rfl | ⟨r, rfl⟩
      · exact nofun
      · rintro c ⟨⟩
        decide
    simpa [Numeral.chars, Numeral.pieces] using Decimal.scan_decimal hwhole hfraction hdigit hmark
  | some e =>
    have hsign := scanSign_signChars e.sign e.hdigits e.hsome rest
    simpa [Numeral.chars, Numeral.pieces, Exponent.chars] using
      Decimal.scan_scientific hwhole hfraction e.hmark hsign e.hdigits e.hsome hdigit

/-- **A finite number is scanned whole.** -/
theorem scanNumber?_numeral (n : Numeral) (hfinite : n.value.isFinite) {rest : List Char} (h : Ends rest) :
    scanNumber? (n.chars ++ rest) = some (.literal (.number n.value), rest) := by
  have hmark : rest.head?.any (fun c => c = 'e' || c = 'E') = false := by
    rcases h with rfl | ⟨r, rfl⟩ <;> rfl
  rw [Numeral.value] at hfinite
  simp [scanNumber?, scan_numeral n h, hmark, hfinite, Numeral.value]

/-! ## Scanning lexemes -/

theorem Numeral.exists_cons (n : Numeral) : ∃ c r, n.chars = c :: r ∧ isDigit c := by
  obtain ⟨c, r, hwhole⟩ := List.exists_cons_of_ne_nil n.hsome
  exact ⟨c, _, by rw [Numeral.chars, hwhole, List.cons_append], n.hwhole c (hwhole ▸ List.mem_cons_self)⟩

/-- No operator starts with a character of a word. -/
theorem scanned_operand {c : Char} (h : isWordChar c) (r : List Char) :
    scanPair? (c :: r) = none ∧ singleToken? c = none := by
  have hne (d : Char) (hd : isWordChar d = false) : c ≠ d := by
    rintro rfl
    rw [h] at hd
    cases hd
  constructor
  · cases r with
    | nil => rfl
    | cons d r =>
      simp [scanPair?, pairOperator?, hne '>' rfl, hne '<' rfl, hne '=' rfl, hne '!' rfl, hne '&' rfl, hne '|' rfl]
  · simp [singleToken?, hne '(' rfl, hne ')' rfl, hne '+' rfl, hne '-' rfl, hne '*' rfl, hne '/' rfl, hne '%' rfl,
      hne '<' rfl, hne '>' rfl, hne '!' rfl]

theorem scanToken?_digit {c : Char} (h : isDigit c) (r : List Char) : scanToken? (c :: r) = scanNumber? (c :: r) := by
  obtain ⟨hpair, hsingle⟩ := scanned_operand (isWordChar_of_isDigit h) r
  simp [scanToken?, hpair, hsingle, h]

theorem scanToken?_wordStart {c : Char} (h : isWordStart c) (r : List Char) :
    scanToken? (c :: r) = some (scanWord (c :: r)) := by
  obtain ⟨hpair, hsingle⟩ := scanned_operand (isWordChar_of_isWordStart h) r
  have hdot : c ≠ '.' := by rintro rfl; exact absurd h (by decide)
  simp [scanToken?, hpair, hsingle, isDigit_of_isWordStart h, hdot, h]

theorem scanToken?_identifier (i : Identifier) {rest : List Char} (h : Ends rest) :
    scanToken? (i.chars ++ rest) = some (wordToken i.label, rest) := by
  rw [← scanWord_identifier i h]
  exact scanToken?_wordStart i.head.hfirst _

/-- **A lexeme is scanned as one token.** -/
theorem scanToken?_lexeme (l : Lexeme) {rest : List Char} (h : Ends rest) :
    scanToken? (l.chars ++ rest) = some (l.token, rest) := by
  cases l with
  | opening => rcases h with rfl | ⟨r, rfl⟩ <;> rfl
  | closing => rcases h with rfl | ⟨r, rfl⟩ <;> rfl
  | not => rcases h with rfl | ⟨r, rfl⟩ <;> rfl
  | operator o => rcases h with rfl | ⟨r, rfl⟩ <;> cases o <;> rfl
  | number n hfinite =>
    obtain ⟨c, r, hchars, hdigit⟩ := n.exists_cons
    rw [Lexeme.chars, Lexeme.token, ← scanNumber?_numeral n hfinite h, hchars]
    exact scanToken?_digit hdigit _
  | reserved word v hword =>
    obtain ⟨i, rfl⟩ := exists_label_of_reserved hword
    rw [Lexeme.chars, Identifier.toList_label, scanToken?_identifier i h, wordToken, hword]
    rfl
  | identifier i hfree =>
    rw [Lexeme.chars, scanToken?_identifier i h, wordToken, hfree]
    rfl

/-! ## The ends of lexemes -/

/-- The first character of a lexeme is no blank. -/
theorem Lexeme.exists_cons (l : Lexeme) : ∃ c r, l.chars = c :: r ∧ isBlank c = false := by
  have hword (i : Identifier) : ∃ c r, i.chars = c :: r ∧ isBlank c = false :=
    ⟨i.head.first, _, rfl, isBlank_of_isWordChar (isWordChar_of_isWordStart i.head.hfirst)⟩
  cases l with
  | opening => exact ⟨_, _, rfl, rfl⟩
  | closing => exact ⟨_, _, rfl, rfl⟩
  | not => exact ⟨_, _, rfl, rfl⟩
  | operator o => cases o <;> exact ⟨_, _, rfl, rfl⟩
  | number n hfinite =>
    obtain ⟨c, r, hchars, hdigit⟩ := n.exists_cons
    exact ⟨c, r, hchars, isBlank_of_isWordChar (isWordChar_of_isDigit hdigit)⟩
  | reserved word v hreserved =>
    obtain ⟨i, rfl⟩ := exists_label_of_reserved hreserved
    rw [Lexeme.chars, Identifier.toList_label]
    exact hword i
  | identifier i hfree => exact hword i

/-- The last character of a text is no blank. -/
def Firm (s : List Char) : Prop := ∃ c, s.getLast? = some c ∧ isBlank c = false

namespace Firm

variable {s : List Char}

theorem append (s : List Char) {t : List Char} (h : Firm t) : Firm (s ++ t) := by
  obtain ⟨c, hlast, hc⟩ := h
  exact ⟨c, by rw [List.getLast?_append, hlast, Option.some_or], hc⟩

theorem of_all (hsome : s ≠ []) (h : ∀ c ∈ s, isBlank c = false) : Firm s :=
  ⟨s.getLast hsome, List.getLast?_eq_some_getLast hsome, h _ (List.getLast_mem hsome)⟩

theorem flatMap (h : Firm s) {α : Type} {f : α → List Char} (hf : ∀ x, Firm (f x)) (xs : List α) :
    Firm (s ++ xs.flatMap f) := by
  induction xs generalizing s with
  | nil =>
    rw [List.flatMap_nil, List.append_nil]
    exact h
  | cons x xs ih =>
    rw [List.flatMap_cons, ← List.append_assoc]
    exact ih ((hf x).append s)

end Firm

theorem Group.firm (g : Group) : Firm g.chars := by
  have hclosing : Firm [']'] := ⟨']', rfl, rfl⟩
  cases g with
  | quoted mark text hmark htext => exact (hclosing.append [mark]).append ('[' :: mark :: text)
  | bare first text hfirst htext => exact hclosing.append ('[' :: first :: text)

theorem Segment.firm (s : Segment) : Firm s.chars := by
  have hword : Firm (s.first :: s.rest) := by
    refine .of_all (List.cons_ne_nil _ _) (List.forall_mem_cons.mpr ⟨?_, fun c hc => ?_⟩)
    · exact isBlank_of_isWordChar (isWordChar_of_isWordStart s.hfirst)
    · exact isBlank_of_isWordChar (s.hrest c hc)
  exact hword.flatMap Group.firm s.groups

theorem Identifier.firm (i : Identifier) : Firm i.chars :=
  i.head.firm.flatMap (fun s => s.firm.append ['.']) i.tail

theorem Numeral.firm (n : Numeral) : Firm n.chars := by
  have hdigits {ds : List Char} (hsome : ds ≠ []) (hds : ∀ c ∈ ds, isDigit c) : Firm ds :=
    .of_all hsome fun c hc => isBlank_of_isWordChar (isWordChar_of_isDigit (hds c hc))
  obtain ⟨whole, fraction, exponent, hwhole, hsome, hfraction⟩ := n
  cases exponent with
  | some e =>
    have hchars : Firm e.chars := ((hdigits e.hsome e.hdigits).append (signChars e.sign)).append [e.mark]
    exact (hchars.append _).append whole
  | none =>
    cases fraction with
    | none => simpa [Numeral.chars, Decimal.fractionChars] using hdigits hsome hwhole
    | some ds =>
      have hpoint : Firm ('.' :: ds) := by
        refine .of_all (List.cons_ne_nil _ _) (List.forall_mem_cons.mpr ⟨rfl, fun c hc => ?_⟩)
        exact isBlank_of_isWordChar (isWordChar_of_isDigit (hfraction ds rfl c hc))
      simpa [Numeral.chars, Decimal.fractionChars] using hpoint.append whole

/-- The last character of a lexeme is no blank. -/
theorem Lexeme.firm (l : Lexeme) : Firm l.chars := by
  cases l with
  | opening => exact ⟨_, rfl, rfl⟩
  | closing => exact ⟨_, rfl, rfl⟩
  | not => exact ⟨_, rfl, rfl⟩
  | operator o => cases o <;> exact ⟨_, rfl, rfl⟩
  | number n hfinite => exact n.firm
  | reserved word v hreserved =>
    obtain ⟨i, rfl⟩ := exists_label_of_reserved hreserved
    rw [Lexeme.chars, Identifier.toList_label]
    exact i.firm
  | identifier i hfree => exact i.firm

/-! ## Sentences -/

/-- Lexemes with a space before each of them. -/
def spaced (lexemes : List Lexeme) : List Char := lexemes.flatMap fun l => ' ' :: l.chars

theorem ends_spaced (lexemes : List Lexeme) : Ends (spaced lexemes) := by
  cases lexemes with
  | nil => exact .inl rfl
  | cons l lexemes => exact .inr ⟨_, rfl⟩

theorem sentence_cons (l : Lexeme) (lexemes : List Lexeme) : sentence (l :: lexemes) = l.chars ++ spaced lexemes := by
  induction lexemes generalizing l with
  | nil => exact (List.append_nil _).symm
  | cons next lexemes ih =>
    calc sentence (l :: next :: lexemes)
      _ = l.chars ++ ' ' :: sentence (next :: lexemes) := rfl
      _ = l.chars ++ ' ' :: (next.chars ++ spaced lexemes) := by rw [ih]
      _ = l.chars ++ spaced (next :: lexemes) := rfl

/-- The blanks between tokens are blanks. -/
theorem isBlank_of_isGap {c : Char} (h : isGap c) : isBlank c := by
  simp only [isGap, Bool.or_eq_true, decide_eq_true_eq] at h
  rcases h with (((rfl | rfl) | rfl) | rfl) | hfeed
  · rfl
  · rfl
  · rfl
  · rfl
  · simp [isBlank, hfeed]

theorem tokenizeWithin_space (n : Nat) (s : List Char) : tokenizeWithin n (' ' :: s) = tokenizeWithin n s := by
  cases n <;> rfl

/-- **The token of a lexeme is taken off the front of a text.** -/
theorem tokenizeWithin_lexeme (l : Lexeme) {rest : List Char} (h : Ends rest) (n : Nat) :
    tokenizeWithin (n + 1) (l.chars ++ rest) = (tokenizeWithin n rest).map (l.token :: ·) := by
  have hscan := scanToken?_lexeme l h
  obtain ⟨c, r, hchars, hblank⟩ := l.exists_cons
  have hgap : isGap c = false := by
    by_contra hgap
    rw [Bool.not_eq_false] at hgap
    rw [isBlank_of_isGap hgap] at hblank
    cases hblank
  rw [hchars, List.cons_append] at hscan ⊢
  rw [tokenizeWithin, List.dropWhile_cons_of_neg (by simp [hgap])]
  simp only [hscan]

/-- By induction along the row, all its lexemes are taken off, one token for each. -/
theorem tokenizeWithin_spaced {lexemes : List Lexeme} {n : Nat} (h : (spaced lexemes).length ≤ n) :
    tokenizeWithin n (spaced lexemes) = some (lexemes.map Lexeme.token) := by
  induction lexemes generalizing n with
  | nil => cases n <;> rfl
  | cons l lexemes ih =>
    have hcons : spaced (l :: lexemes) = ' ' :: (l.chars ++ spaced lexemes) := List.flatMap_cons ..
    rw [hcons, List.length_cons, List.length_append] at h
    obtain ⟨k, rfl⟩ : ∃ k, n = k + 1 := ⟨n - 1, by omega⟩
    rw [hcons, tokenizeWithin_space, tokenizeWithin_lexeme l (ends_spaced lexemes), ih (by omega)]
    rfl

theorem tokenize_lexemes (lexemes : List Lexeme) : tokenize (sentence lexemes) = some (lexemes.map Lexeme.token) := by
  cases lexemes with
  | nil => rfl
  | cons l lexemes =>
    obtain ⟨c, r, hchars, -⟩ := l.exists_cons
    have hlength : (l.chars ++ spaced lexemes).length = (r ++ spaced lexemes).length + 1 := by
      rw [hchars, List.cons_append, List.length_cons]
    rw [tokenize, sentence_cons, hlength, tokenizeWithin_lexeme l (ends_spaced lexemes), tokenizeWithin_spaced (by
      rw [List.length_append]
      omega)]
    rfl

theorem trim_sentence (lexemes : List Lexeme) : trim (sentence lexemes) = sentence lexemes := by
  cases lexemes with
  | nil => rfl
  | cons l lexemes =>
    obtain ⟨last, hlast, hfirm⟩ : Firm (l.chars ++ spaced lexemes) :=
      l.firm.flatMap (fun m => m.firm.append [' ']) lexemes
    obtain ⟨c, r, hchars, hblank⟩ := l.exists_cons
    rw [sentence_cons]
    refine trim_of_ends (fun d hd => ?_) fun d hd => ?_
    · rw [hchars] at hd
      exact Option.some.inj hd ▸ hblank
    · rw [hlast] at hd
      exact Option.some.inj hd ▸ hfirm

/-- **A sentence has the tokens of its lexemes, one for each in their order, and refers to its identifiers**, each where
it first occurs. -/
theorem tokenize_sentence (lexemes : List Lexeme) :
    tokenize (sentence lexemes) = some (lexemes.map Lexeme.token) ∧
      references (String.ofList (sentence lexemes)) = (lexemes.filterMap Lexeme.label?).eraseDups := by
  refine ⟨tokenize_lexemes lexemes, ?_⟩
  rw [references_eq, String.toList_ofList, trim_sentence, tokenize_lexemes, Option.getD_some, List.filterMap_map]
  congr 2
  exact funext Lexeme.token_label?

/-- Identifiers with both kinds of groups, one of them twice, a number with a sign in its exponent, and a reserved word. -/
def fleet : List Lexeme :=
  let k : Segment := ⟨'_', ['k'], [], rfl, List.all_eq_true.mp rfl⟩
  let km : Identifier := ⟨⟨'t', ['1'], [.bare '2' ['x'] rfl (by decide)], rfl, List.all_eq_true.mp rfl⟩, [k]⟩
  let shop : Identifier := ⟨⟨'s', [], [.quoted '"' [' ', ']'] rfl (by decide)], rfl, nofun⟩, []⟩
  let exponent : Exponent := ⟨'E', some true, ['3'], .inr rfl, List.all_eq_true.mp rfl, by decide⟩
  let hundredths (ds : List Char) (h : ds ∈ some ['5']) : ∀ c ∈ ds, isDigit c :=
    Option.some.inj h ▸ List.all_eq_true.mp rfl
  let number : Numeral := ⟨['1'], some ['5'], some exponent, List.all_eq_true.mp rfl, by decide, hundredths⟩
  [.identifier km (by decide +kernel), .operator .ge, .number number (by decide +kernel), .operator .and, .not,
    .identifier shop (by decide +kernel), .operator .or, .reserved "true" (.bool true) rfl, .operator .lt,
    .identifier km (by decide +kernel)]

/-- A label with a space and a bracket between its marks is kept whole, and one that occurs twice is listed once. -/
theorem tokenize_sentence_fleet :
    sentence fleet = "t1[2x]._k >= 1.5E-3 && ! s[\" ]\"] || true < t1[2x]._k".toList ∧
      references "t1[2x]._k >= 1.5E-3 && ! s[\" ]\"] || true < t1[2x]._k" = ["t1[2x]._k", "s[\" ]\"]"] := by
  have hsentence : sentence fleet = "t1[2x]._k >= 1.5E-3 && ! s[\" ]\"] || true < t1[2x]._k".toList := by
    decide +kernel
  have hlabels : (fleet.filterMap Lexeme.label?).eraseDups = ["t1[2x]._k", "s[\" ]\"]"] := by decide +kernel
  have hreferences := (tokenize_sentence fleet).2
  rw [hsentence, String.ofList_toList, hlabels] at hreferences
  exact ⟨hsentence, hreferences⟩

end PathLedger.Expr
