import PathLedger.Proofs.Path.Groups
import PathLedger.Proofs.Path.Plain

/-!
# Segments in a path text

A text is cut at its dots, except inside of brackets and, there, of quotation marks. Where it is cut the scanner stands
outside of both again, whatever the text holds, so the segments can be written with dots between them and are cut there
once more, and nowhere else.

* `Path.Passes` — texts that the scanner goes through without a cut, from one of its states to another.
* `Path.passes_or_cut` — every text is such a text, or one in front of its first cut.
* `Path.Passes.trim` — blanks at the ends make no difference.
* `Path.Kept`, `Path.Whole` — texts after which the scanner stands as before, and the segments among them.
* `Path.parse_joinSegments` — segments with dots between them.
* `Path.parse_stable` — **the path of a text is read again from its key**, for every text.
* `Path.canonical_quoted` — **names in quotation marks and brackets are taken as they are**.
-/

namespace PathLedger.Path

open Text

variable {s t first rest : List Char} {depth depth' depth'' : Nat} {mark mark' mark'' : Option Char}

/-! ## From state to state -/

/-- An open quotation mark, or none. -/
def IsMark (mark : Option Char) : Prop := ∀ q ∈ mark, isQuote q

theorem isMark_none : IsMark none := fun _ h => nomatch h

/-- A text that the scanner goes through without a cut: it starts inside of `depth` brackets with the mark open, and
stands at the second depth and mark behind the text. -/
def Passes (depth : Nat) (mark : Option Char) (s : List Char) (depth' : Nat) (mark' : Option Char) : Prop :=
  ∀ rest, cut depth mark (s ++ rest) = prepend s (cut depth' mark' rest)

theorem passes_nil : Passes depth mark [] depth mark := fun _ => rfl

theorem Passes.append (hs : Passes depth mark s depth' mark') (ht : Passes depth' mark' t depth'' mark'') :
    Passes depth mark (s ++ t) depth'' mark'' := by
  intro rest
  rw [List.append_assoc, hs, ht, prepend_append]

theorem cut_ne_nil (depth : Nat) (mark : Option Char) (s : List Char) : cut depth mark s ≠ [] := by
  have hconsHead (c : Char) (pieces : List (List Char)) : consHead c pieces ≠ [] := by cases pieces <;> simp [consHead]
  cases s with
  | nil => exact List.cons_ne_nil _ _
  | cons c r =>
    unfold cut
    split
    · exact hconsHead _ _
    · split
      · exact hconsHead _ _
      split
      · exact hconsHead _ _
      split
      · exact hconsHead _ _
      split
      · exact List.cons_ne_nil _ _
      · exact hconsHead _ _

theorem prepend_inj {pieces pieces' : List (List Char)} (hne : pieces ≠ []) (hne' : pieces' ≠ [])
    (h : prepend s pieces = prepend s pieces') : pieces = pieces' := by
  obtain ⟨piece, more, rfl⟩ := List.exists_cons_of_ne_nil hne
  obtain ⟨piece', more', rfl⟩ := List.exists_cons_of_ne_nil hne'
  rw [prepend_cons, prepend_cons] at h
  obtain ⟨hfirst, hrest⟩ := List.cons.inj h
  rw [List.append_cancel_left hfirst, hrest]

theorem cut_dot (s : List Char) : cut 0 none ('.' :: s) = [] :: cut 0 none s := by
  rw [cut]
  simp [isQuote]

/-- A text without a cut is its only piece. -/
theorem Passes.cut_eq (h : Passes depth mark s depth' mark') : cut depth mark s = [s] := by
  have hall := h []
  rwa [List.append_nil, cut, prepend_cons, List.append_nil] at hall

/-- A text that leads out of all brackets is the piece in front of a dot. -/
theorem Passes.cut_append_dot (h : Passes depth mark s 0 none) (rest : List Char) :
    cut depth mark (s ++ '.' :: rest) = s :: cut 0 none rest := by
  rw [h, cut_dot, prepend_cons, List.append_nil]

/-- One character either is a dot outside of brackets or is gone through. -/
theorem dot_or_passes (hmark : IsMark mark) (depth : Nat) (c : Char) :
    depth = 0 ∧ mark = none ∧ c = '.' ∨ ∃ depth' mark', IsMark mark' ∧ Passes depth mark [c] depth' mark' := by
  cases mark with
  | some q =>
    refine .inr ⟨depth, if c = q then none else some q, ?_, fun rest => rfl⟩
    split
    · exact isMark_none
    · exact hmark
  | none =>
    by_cases hquote : (isQuote c && depth != 0) = true
    · refine .inr ⟨depth, some c, fun q hq => ?_, fun rest => ?_⟩
      · obtain rfl := Option.some.inj hq
        exact (Bool.and_eq_true_iff.mp hquote).1
      · exact if_pos hquote
    have hstep (rest : List Char) : cut depth none (c :: rest) =
        if c = '[' then consHead c (cut (depth + 1) none rest)
        else if c = ']' then consHead c (cut (depth - 1) none rest)
        else if c = '.' && depth = 0 then [] :: cut 0 none rest
        else consHead c (cut depth none rest) := if_neg hquote
    by_cases hopen : c = '['
    · exact .inr ⟨depth + 1, none, isMark_none, fun rest => (hstep rest).trans (if_pos hopen)⟩
    by_cases hclose : c = ']'
    · exact .inr ⟨depth - 1, none, isMark_none, fun rest => by
        rw [List.singleton_append, hstep, if_neg hopen, if_pos hclose]
        rfl⟩
    by_cases hdot : (c = '.' && depth = 0) = true
    · rw [Bool.and_eq_true, decide_eq_true_eq, decide_eq_true_eq] at hdot
      exact .inl ⟨hdot.2, rfl, hdot.1⟩
    · exact .inr ⟨depth, none, isMark_none, fun rest => by
        rw [List.singleton_append, hstep, if_neg hopen, if_neg hclose, if_neg hdot]
        rfl⟩

/-- **A text is gone through without a cut, or up to a dot outside of brackets.** -/
theorem passes_or_cut (hmark : IsMark mark) (depth : Nat) (s : List Char) :
    (∃ depth' mark', IsMark mark' ∧ Passes depth mark s depth' mark') ∨
      ∃ first rest, s = first ++ '.' :: rest ∧ Passes depth mark first 0 none := by
  induction s generalizing depth mark with
  | nil => exact .inl ⟨depth, mark, hmark, passes_nil⟩
  | cons c r ih =>
    rcases dot_or_passes hmark depth c with ⟨rfl, rfl, rfl⟩ | ⟨depth', mark', hmark', hstep⟩
    · exact .inr ⟨[], r, rfl, passes_nil⟩
    · rcases ih hmark' depth' with ⟨depth'', mark'', hmark'', hpass⟩ | ⟨first, rest, rfl, hpass⟩
      · exact .inl ⟨depth'', mark'', hmark'', hstep.append hpass⟩
      · exact .inr ⟨c :: first, rest, rfl, hstep.append hpass⟩

/-! ## Texts that are not cut -/

/-- A text that stays in one piece when a path is cut, inside as many brackets and outside of quotation marks. -/
def Kept (depth : Nat) (s : List Char) : Prop :=
  ∀ rest, cut depth none (s ++ rest) = prepend s (cut depth none rest)

theorem Kept.passes (h : Kept depth s) : Passes depth none s depth none := h

theorem Kept.append (hs : Kept depth s) (ht : Kept depth t) : Kept depth (s ++ t) := hs.passes.append ht.passes

/-- Characters at which no path is cut. -/
theorem kept_bare (h : ∀ c ∈ s, isQuote c = false ∧ c ≠ '[' ∧ c ≠ ']' ∧ c ≠ '.') : Kept depth s := by
  intro rest
  induction s with
  | nil => rfl
  | cons c s ih =>
    obtain ⟨⟨hquote, hopen, hclose, hdot⟩, hs⟩ := List.forall_mem_cons.mp h
    rw [List.cons_append, cut, hquote, Bool.false_and, if_neg Bool.false_ne_true, if_neg hopen, if_neg hclose,
      if_neg (by simp [hdot]), ih hs]
    rfl

/-- A bracket group stays in one piece where its content does. -/
theorem Kept.bracketed (h : Kept (depth + 1) s) : Kept depth (bracketed s) := by
  intro rest
  have hclosing : cut (depth + 1) none (']' :: rest) = consHead ']' (cut depth none rest) := by
    rw [cut]
    simp [isQuote]
  have hopening : cut depth none ('[' :: (s ++ ']' :: rest)) =
      consHead '[' (cut (depth + 1) none (s ++ ']' :: rest)) := by
    rw [cut]
    simp [isQuote]
  have htext : Path.bracketed s ++ rest = '[' :: (s ++ ']' :: rest) := by simp [Path.bracketed]
  rw [htext, hopening, h, hclosing]
  show _ = prepend (('[' :: s) ++ [']']) _
  rw [prepend_append]
  rfl

theorem kept_row {contents : List (List Char)} (h : ∀ content ∈ contents, Kept (depth + 1) content) :
    Kept depth (contents.flatMap bracketed) := by
  induction contents with
  | nil => exact passes_nil
  | cons content rest ih =>
    obtain ⟨hcontent, hrest⟩ := List.forall_mem_cons.mp h
    exact hcontent.bracketed.append (ih hrest)

/-- Behind an open quotation mark the scanner waits for the mark. -/
theorem passes_marked {q : Char} (h : q ∉ s) : Passes depth (some q) s depth (some q) := by
  intro rest
  induction s with
  | nil => rfl
  | cons c s ih =>
    obtain ⟨hne, hs⟩ := List.ne_and_not_mem_of_not_mem_cons h
    show consHead c (cut depth (if c = q then none else some q) (s ++ rest)) = _
    rw [if_neg hne.symm, ih hs]
    rfl

theorem passes_quoted {q : Char} (h : q ∉ s) : Passes depth (some q) (s ++ [q]) depth none := by
  refine (passes_marked h).append fun rest => ?_
  show consHead q (cut depth (if q = q then none else some q) rest) = _
  rw [if_pos rfl]
  rfl

/-- Inside of brackets a quoted text stays in one piece. -/
theorem kept_quoted {q : Char} (hquote : isQuote q) (h : q ∉ s) : Kept (depth + 1) (q :: (s ++ [q])) := by
  have hopen : Passes (depth + 1) none [q] (depth + 1) (some q) := by
    intro rest
    rw [List.singleton_append, cut, hquote]
    rfl
  exact hopen.append (passes_quoted h)

theorem kept_of_isWord {s : String} (h : isWord s) : Kept depth s.toList := by
  refine kept_bare fun c hc => ?_
  have hother (d : Char) (hd : isPlain d = false) : c ≠ d := ne_of_isPlain ((isWord_iff.mp h).2 c hc) hd
  refine ⟨?_, hother _ (by decide), hother _ (by decide), hother _ (by decide)⟩
  simp [isQuote, hother '"' (by decide), hother '\'' (by decide)]

/-! ## Blanks -/

/-- Blanks leave the scanner where it is. -/
theorem passes_blank (hmark : IsMark mark) (depth : Nat) (h : ∀ c ∈ s, isBlank c) : Passes depth mark s depth mark := by
  cases mark with
  | none => exact (kept_bare fun c hc => bare_of_isBlank (h c hc)).passes
  | some q =>
    refine passes_marked fun hq => ?_
    have hquote := (bare_of_isBlank (h q hq)).1
    rw [hmark q rfl] at hquote
    cases hquote

/-- Blanks at the ends make no difference to where the scanner gets. -/
theorem Passes.trim (h : Passes 0 none s depth mark) : Passes 0 none (trim s) depth mark := by
  obtain ⟨front, back, hs, hfront, hback⟩ := trim_surrounded s
  have hstart := passes_blank isMark_none 0 hfront
  rcases passes_or_cut isMark_none 0 (Text.trim s) with ⟨depth', mark', hmark', hpass⟩ | ⟨first, rest, hfirst, hpass⟩
  · -- The two ways through the whole text have to agree behind it.
    have hall := (hstart.append hpass).append (passes_blank hmark' depth' hback)
    rw [← hs] at hall
    intro rest
    rw [hpass, prepend_inj (cut_ne_nil _ _ _) (cut_ne_nil _ _ _) ((hall rest).symm.trans (h rest))]
  · have hcut := (hstart.append hpass).cut_append_dot (rest ++ back)
    have htext : front ++ first ++ '.' :: (rest ++ back) = s := by
      rw [hs, hfirst]
      simp
    rw [htext, h.cut_eq] at hcut
    exact absurd (List.cons.inj hcut).2.symm (cut_ne_nil _ _ _)

/-! ## Segments -/

/-- The segments that a piece gives: one, or none where it is blank. -/
theorem parse_of_passes {raw : String} (h : Passes 0 none raw.toList depth mark) :
    parse raw = ⟨(nonEmpty [trim raw.toList]).map String.ofList⟩ := by
  rw [parse, h.cut_eq, List.map_singleton]

/-- Without its blanks at the ends such a text gives the same segments. -/
theorem parse_trim (h : Passes 0 none s depth mark) :
    parse (String.ofList (trim s)) = ⟨(nonEmpty [trim s]).map String.ofList⟩ := by
  have htrim : Passes 0 none (String.ofList (trim s)).toList depth mark := by
    rw [String.toList_ofList]
    exact h.trim
  rw [parse_of_passes htrim, String.toList_ofList, trim_trim]

theorem parse_append_dot {first : String} (h : Passes 0 none first.toList 0 none) (rest : String) :
    parse (first ++ "." ++ rest) =
      ⟨(nonEmpty [trim first.toList]).map String.ofList ++ (parse rest).segments⟩ := by
  have htext : (first ++ "." ++ rest).toList = first.toList ++ '.' :: rest.toList := by simp
  rw [parse, htext, h.cut_append_dot, List.map_cons, ← List.singleton_append, nonEmpty_append, List.map_append]
  rfl

/-- What can stand between two dots of a path: a text that is not cut, without blanks at its ends. -/
structure Whole (s : String) : Prop where
  kept : Kept 0 s.toList
  trimmed : trim s.toList = s.toList
  ne_empty : s ≠ ""

theorem nonEmpty_trimmed {s : String} (htrimmed : trim s.toList = s.toList) (hne : s ≠ "") :
    (nonEmpty [trim s.toList]).map String.ofList = [s] := by
  rw [htrimmed, nonEmpty_singleton (by simpa using hne), List.map_singleton, String.ofList_toList]

theorem Whole.parse {s : String} (h : Whole s) : parse s = ⟨[s]⟩ := by
  rw [parse_of_passes h.kept.passes, nonEmpty_trimmed h.trimmed h.ne_empty]

theorem Whole.parse_append {s : String} (h : Whole s) (t : String) :
    Path.parse (s ++ "." ++ t) = ⟨s :: (Path.parse t).segments⟩ := by
  rw [parse_append_dot h.kept.passes, nonEmpty_trimmed h.trimmed h.ne_empty]
  rfl

/-- A segment in front of a path that is read from its key. -/
theorem Whole.parse_key_cons {s : String} (hs : Whole s) {p : Path} (h : Path.parse p.key = p) :
    Path.parse (key ⟨s :: p.segments⟩) = ⟨s :: p.segments⟩ := by
  obtain ⟨segments⟩ := p
  cases segments with
  | nil => exact hs.parse
  | cons t more =>
    show Path.parse (s ++ "." ++ key ⟨t :: more⟩) = _
    rw [hs.parse_append, h]

/-- **Segments with dots between them are cut there only.** -/
theorem parse_joinSegments {segments : List String} (h : ∀ s ∈ segments, Whole s) (hsome : segments ≠ []) :
    Path.parse (joinSegments segments) = ⟨segments⟩ := by
  induction segments with
  | nil => exact absurd rfl hsome
  | cons s rest ih =>
    obtain ⟨hs, hrest⟩ := List.forall_mem_cons.mp h
    cases rest with
    | nil => exact hs.parse
    | cons t more => exact hs.parse_key_cons (ih hrest (List.cons_ne_nil t more))

theorem joinSegments_concat_append (segments : List String) (s t : String) :
    joinSegments (segments ++ [s ++ t]) = joinSegments (segments ++ [s]) ++ t := by
  induction segments with
  | nil => rfl
  | cons r rest ih =>
    have hcons (last : String) : joinSegments (r :: rest ++ [last]) = r ++ "." ++ joinSegments (rest ++ [last]) := by
      cases rest <;> rfl
    rw [hcons, hcons, ih, ← String.append_assoc]

theorem whole_of_isWord {s : String} (h : isWord s) : Whole s :=
  ⟨kept_of_isWord h, trim_plain (isWord_iff.mp h).2, (isWord_iff.mp h).1⟩

/-! ## Reading a path again -/

/-- **The segments of a text have no blanks at their ends**, and none of them is empty. -/
theorem trimmed_of_mem_parse {raw s : String} (h : s ∈ (parse raw).segments) : s ≠ "" ∧ trim s.toList = s.toList := by
  obtain ⟨piece, hpiece, rfl⟩ := List.mem_map.mp h
  obtain ⟨hmem, hne⟩ := List.mem_filter.mp hpiece
  obtain ⟨raw, -, rfl⟩ := List.mem_map.mp hmem
  rw [String.toList_ofList, trim_trim]
  exact ⟨mt String.ofList_eq_empty_iff.mp (by simpa using hne), rfl⟩

theorem whole_of_kept (h : Kept 0 s) (hne : trim s ≠ []) : Whole (String.ofList (trim s)) := by
  refine ⟨?_, ?_, mt String.ofList_eq_empty_iff.mp hne⟩
  · rw [String.toList_ofList]
    exact h.passes.trim
  · rw [String.toList_ofList, trim_trim]

/-- **The path of a text is read again from its key.** -/
theorem parse_key_parse (raw : String) : parse (parse raw).key = parse raw := by
  -- From cut to cut; behind the last one, brackets and quotation marks may stay open.
  induction hn : raw.toList.length using Nat.strong_induction_on generalizing raw with
  | h n ih =>
    rcases passes_or_cut isMark_none 0 raw.toList with ⟨depth, mark, -, hpass⟩ | ⟨first, rest, hraw, hpass⟩
    · rw [parse_of_passes hpass]
      by_cases hblank : trim raw.toList = []
      · rw [hblank]
        rfl
      · rw [nonEmpty_singleton hblank]
        show parse (String.ofList (trim raw.toList)) = _
        rw [parse_trim hpass, nonEmpty_singleton hblank]
    · have htext : raw = String.ofList first ++ "." ++ String.ofList rest := by
        rw [← String.toList_inj, hraw]
        simp
      have hrest := ih rest.length (by rw [← hn, hraw]; simp; omega) (String.ofList rest) (by rw [String.toList_ofList])
      rw [htext, parse_append_dot (by rwa [String.toList_ofList]), String.toList_ofList]
      by_cases hblank : trim first = []
      · rw [hblank]
        exact hrest
      · rw [nonEmpty_singleton hblank]
        exact (whole_of_kept hpass hblank).parse_key_cons hrest

/-- **Reading a path is stable**: the key of what is read is read as the same path, and the segments of every text are
what trimming leaves of something that is more than blanks. -/
theorem parse_stable (raw : String) :
    parse (parse raw).key = parse raw ∧ ∀ s ∈ (parse raw).segments, s ≠ "" ∧ trimmed s = s := by
  refine ⟨parse_key_parse raw, fun s hs => ?_⟩
  obtain ⟨hne, htrim⟩ := trimmed_of_mem_parse hs
  exact ⟨hne, by rw [trimmed, htrim, String.ofList_toList]⟩

/-- A bracket too many, and one that stays open around a quotation mark. -/
example : parse " a] . . b['x.y " = ⟨["a]", "b['x.y"]⟩ := by decide +kernel

/-! ## Quoted names -/

/-- A name in quotation marks and brackets. -/
def quotedKey (name : String) : String := "[\"" ++ name ++ "\"]"

/-- The content of such a bracket group. -/
def quotedContent (name : String) : List Char := '"' :: (name.toList ++ ['"'])

theorem toList_quotedKey (name : String) : (quotedKey name).toList = bracketed (quotedContent name) := by
  simp [quotedKey, quotedContent, bracketed]

theorem toList_join_quotedKey (names : List String) :
    (String.join (names.map quotedKey)).toList = (names.map quotedContent).flatMap bracketed := by
  rw [String.toList_join, List.flatMap_map, List.flatMap_map]
  exact congrArg (names.flatMap ·) (funext toList_quotedKey)

theorem unquote_trim_quotedContent (name : String) : unquote (trim (quotedContent name)) = name.toList := by
  have htrim : trim (quotedContent name) = quotedContent name := by
    refine trim_of_ends (fun c hc => ?_) fun c hc => ?_
    · obtain rfl := Option.some.inj hc
      decide
    · rw [quotedContent, ← List.cons_append, List.getLast?_concat] at hc
      obtain rfl := Option.some.inj hc
      decide
  rw [htrim, quotedContent, unquote, List.getLast?_concat, List.dropLast_concat]
  simp

theorem takeWhile_row (contents : List (List Char)) : (contents.flatMap bracketed).takeWhile (· != '[') = [] := by
  cases contents with
  | nil => rfl
  | cons content rest => rfl

theorem eq_of_mem_getLast?_row {contents : List (List Char)} {c : Char}
    (h : c ∈ (contents.flatMap bracketed).getLast?) : c = ']' := by
  rcases List.eq_nil_or_concat contents with rfl | ⟨front, content, rfl⟩
  · cases h
  · rw [List.concat_eq_append, List.flatMap_append, List.flatMap_singleton, bracketed, ← List.cons_append,
      ← List.append_assoc, List.getLast?_concat] at h
    exact (Option.some.inj h).symm

/-- A word keeps its ends, also with a row of bracket groups behind it. -/
theorem trim_row {base : List Char} (hne : base ≠ []) (hbase : ∀ c ∈ base, isPlain c) (contents : List (List Char)) :
    trim (base ++ contents.flatMap bracketed) = base ++ contents.flatMap bracketed := by
  refine trim_of_ends (fun c hc => ?_) fun c hc => ?_
  · obtain ⟨first, more, rfl⟩ := List.exists_cons_of_ne_nil hne
    obtain rfl := Option.some.inj hc
    exact isBlank_of_isPlain (hbase _ List.mem_cons_self)
  · rw [List.getLast?_append] at hc
    rcases Option.or_eq_some_iff.mp hc with hrow | ⟨-, hlast⟩
    · obtain rfl := eq_of_mem_getLast?_row hrow
      decide
    · exact isBlank_of_isPlain (hbase c (List.mem_of_getLast? hlast))

/-- A word with a row of bracket groups behind it stands for the word and what the groups name. -/
theorem expand_row {base : List Char} (hne : base ≠ []) (hbase : ∀ c ∈ base, isPlain c) {contents : List (List Char)}
    (h : ∀ content ∈ contents, Closed content) :
    expand (base ++ contents.flatMap bracketed) = base :: nonEmpty (contents.map fun g => unquote (trim g)) := by
  have hfront : ∀ c ∈ base, (c != '[') = true := fun c hc => by simpa using ne_of_isPlain (hbase c hc) (by decide)
  unfold expand
  dsimp only
  rw [trim_row hne hbase, takeWhile_front hfront (takeWhile_row _), dropWhile_front hfront (takeWhile_row _),
    trim_plain hbase, nonEmpty_singleton hne]
  cases contents with
  | nil =>
    rw [List.flatMap_nil, List.append_nil, nonEmpty_singleton hne]
    rfl
  | cons content rest =>
    rw [groups_row h, if_neg (by simp [bracketed])]
    rfl

theorem toList_word_quoted (base : String) (names : List String) :
    (base ++ String.join (names.map quotedKey)).toList = base.toList ++ (names.map quotedContent).flatMap bracketed := by
  rw [String.toList_append, toList_join_quotedKey]

/-- A word with quoted names behind it is one segment of a path text. -/
theorem whole_quoted {base : String} {names : List String} (hbase : isWord base)
    (hnames : ∀ name ∈ names, '"' ∉ name.toList) : Whole (base ++ String.join (names.map quotedKey)) := by
  obtain ⟨hne, hplain⟩ := isWord_iff.mp hbase
  have hkept : ∀ content ∈ names.map quotedContent, Kept 1 content :=
    List.forall_mem_map.mpr fun name hname => kept_quoted rfl (hnames name hname)
  refine ⟨?_, ?_, fun hempty => hne (String.append_eq_empty_iff.mp hempty).1⟩
  · rw [toList_word_quoted]
    exact (kept_of_isWord hbase).append (kept_row hkept)
  · rw [toList_word_quoted]
    exact trim_row (by simpa using hne) hplain _

/-- What groups of quoted names stand for are the names. -/
theorem nonEmpty_quotedContents {names : List String} (hnames : ∀ name ∈ names, name ≠ "") :
    nonEmpty ((names.map quotedContent).map fun g => unquote (trim g)) = names.map String.toList := by
  rw [List.map_map, nonEmpty, List.filter_eq_self.mpr]
  · exact List.map_congr_left fun name _ => unquote_trim_quotedContent name
  · refine List.forall_mem_map.mpr fun name hname => ?_
    rw [Function.comp_apply, unquote_trim_quotedContent]
    simpa using hnames name hname

/-- **Names in quotation marks and brackets are taken as they are**, behind a word of letters and digits, whatever dots,
brackets, blanks and other marks they hold. -/
theorem canonical_quoted {base : String} {names : List String} (hbase : isWord base)
    (hnames : ∀ name ∈ names, name ≠ "" ∧ '"' ∉ name.toList) :
    canonical (base ++ String.join (names.map quotedKey)) = ⟨base :: names⟩ := by
  obtain ⟨hne, hplain⟩ := isWord_iff.mp hbase
  have hwhole := whole_quoted hbase fun name hname => (hnames name hname).2
  have hclosed : ∀ content ∈ names.map quotedContent, Closed content :=
    List.forall_mem_map.mpr fun name hname => closed_quoted rfl (hnames name hname).2
  rw [canonical, hwhole.parse, normalize, List.flatMap_singleton, toList_word_quoted,
    expand_row (by simpa using hne) hplain hclosed, nonEmpty_quotedContents fun name hname => (hnames name hname).1,
    List.map_cons, List.map_map]
  simp

/-- Brackets, a dot, blanks, another mark and an operator inside of the names. -/
theorem canonical_quoted_marks :
    (isWord "menu" ∧ ∀ name ∈ ["a.b", " ", "]['", "x => 1"], name ≠ "" ∧ '"' ∉ name.toList) ∧
      canonical ("menu" ++ String.join (["a.b", " ", "]['", "x => 1"].map quotedKey)) =
        ⟨["menu", "a.b", " ", "]['", "x => 1"]⟩ := by
  have hnames : isWord "menu" ∧ ∀ name ∈ ["a.b", " ", "]['", "x => 1"], name ≠ "" ∧ '"' ∉ name.toList := by decide
  exact ⟨hnames, canonical_quoted hnames.1 hnames.2⟩

end PathLedger.Path
