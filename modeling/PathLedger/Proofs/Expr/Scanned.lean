import PathLedger.Proofs.Expr.Labels
import PathLedger.Proofs.Text.Ends
import PathLedger.Proofs.Text.Parts

/-!
# Labels stand in the text of an expression

A label is the word at its place with the groups and segments behind it, character by character. So everything that is
counted in a text bounds what is counted in each of its labels.

* `Expr.identifierTail_append`, `Expr.scanWord_append` — what a scanner takes, with what it leaves, is the text.
* `Expr.scanToken?_cases` — what a token is.
* `Expr.scanToken?_spec` — a token leaves the end of the text, and its label stands in it.
* `Expr.exists_scanToken?` — every identifier among the tokens of a text has been scanned somewhere in it.
* `Expr.label_sublist` — **the labels of a text are rows of its characters**.
* `Expr.reference_start` — a label starts with a letter or an underscore.
-/

namespace PathLedger.Expr

open Text
open scoped List

theorem scanQuotedGroup?_append {s group rest : List Char} (h : scanQuotedGroup? s = some (group, rest)) :
    group ++ rest = s := by
  unfold scanQuotedGroup? at h
  split at h
  · cases h
  · rename_i q r
    split at h
    · split at h
      · rename_i c behind hdrop
        obtain ⟨rfl, rfl⟩ := Prod.mk.inj (Option.some.inj h)
        conv_rhs => rw [eq_of_dropWhile hdrop]
        simp
      · cases h
    · cases h

theorem scanPlainGroup?_append {s group rest : List Char} (h : scanPlainGroup? s = some (group, rest)) :
    group ++ rest = s := by
  unfold scanPlainGroup? at h
  dsimp only at h
  split at h
  · rename_i c behind hdrop
    split at h
    · cases h
    · obtain ⟨rfl, rfl⟩ := Prod.mk.inj (Option.some.inj h)
      conv_rhs => rw [eq_of_dropWhile hdrop]
      simp
  · cases h

theorem scanGroup?_append {s group rest : List Char} (h : scanGroup? s = some (group, rest)) : group ++ rest = s := by
  unfold scanGroup? at h
  split at h
  · rename_i found hfound
    obtain rfl := Option.some.inj h
    exact scanQuotedGroup?_append hfound
  · exact scanPlainGroup?_append h

theorem identifierTail_append (n : Nat) (s : List Char) : (identifierTail n s).1 ++ (identifierTail n s).2 = s := by
  induction n generalizing s with
  | zero => rfl
  | succ n ih =>
    unfold identifierTail
    split
    · split
      · rename_i group rest hgroup
        rw [← scanGroup?_append hgroup]
        simp [ih]
      · rfl
    · rename_i c r
      split
      · simp [ih]
      · rfl
    · rfl

/-- A word with its groups and segments, and what is behind them, are the text. -/
theorem scanWord_append (s : List Char) :
    ∃ taken, taken ++ (scanWord s).2 = s ∧ ∀ label, (scanWord s).1 = .identifier label → label.toList = taken := by
  have htail := identifierTail_append s.length (s.dropWhile isWordChar)
  refine ⟨s.takeWhile isWordChar ++ (identifierTail s.length (s.dropWhile isWordChar)).1, ?_, ?_⟩
  · have hrest : (scanWord s).2 = (identifierTail s.length (s.dropWhile isWordChar)).2 := by
      unfold scanWord
      dsimp only
      split <;> rfl
    rw [hrest, List.append_assoc, htail, List.takeWhile_append_dropWhile]
  · intro label hlabel
    unfold scanWord at hlabel
    dsimp only at hlabel
    split at hlabel
    · cases hlabel
    · obtain rfl := Token.identifier.inj hlabel
      exact String.toList_ofList

/-- The decimal at the front of a text leaves its end. -/
theorem scan_suffix (s : List Char) : (Decimal.scan s).2 <:+ s := by
  have hwhole : s.dropWhile isDigit <:+ s := List.dropWhile_suffix _
  have hsign (t : List Char) : (Decimal.scanSign t).2 <:+ t := by
    unfold Decimal.scanSign
    split
    · exact List.suffix_cons _ _
    · exact List.suffix_cons _ _
    · exact List.suffix_refl _
  fun_cases Decimal.scan s
  case case4 => exact List.nil_suffix
  all_goals
    rename_i hbehind
    dsimp +zetaDelta only at hbehind
    -- What is behind the digits and the fraction.
    have hrest := (congrArg (fun parts : Option (List Char) × List Char => parts.2 <:+ s) hbehind).mp (by
      split
      · rename_i t hdot
        exact (List.dropWhile_suffix _).trans ((List.suffix_cons '.' t).trans (hdot ▸ hwhole))
      · exact hwhole)
  case case2 c t _ _ u hsigned _ =>
    have hu : u <:+ t := by
      have := hsign t
      rwa [hsigned] at this
    exact (List.dropWhile_suffix _).trans (hu.trans ((List.suffix_cons _ _).trans hrest))
  all_goals exact hrest

theorem singleToken?_ne (c : Char) (label : String) : singleToken? c ≠ some (.identifier label) := by
  fun_cases singleToken? c
  all_goals exact nofun

/-- **What a token is**: a word with what belongs to it, or else no identifier, and then it leaves the end of the
text. -/
theorem scanToken?_cases {c : Char} {r rest : List Char} {t : Token} (h : scanToken? (c :: r) = some (t, rest)) :
    isWordStart c ∧ scanWord (c :: r) = (t, rest) ∨ rest <:+ c :: r ∧ ∀ label, t ≠ .identifier label := by
  unfold scanToken? at h
  dsimp only at h
  split at h
  · rename_i found hfound
    obtain rfl := Option.some.inj h
    cases r with
    | nil => cases hfound
    | cons d r =>
      obtain ⟨o, -, heq⟩ := Option.map_eq_some_iff.mp hfound
      obtain ⟨rfl, rfl⟩ := Prod.mk.inj heq
      exact .inr ⟨(List.suffix_cons d r).trans (List.suffix_cons c (d :: r)), fun _ => Token.noConfusion⟩
  · split at h
    · rename_i token hsingle
      obtain ⟨rfl, rfl⟩ := Prod.mk.inj (Option.some.inj h)
      refine .inr ⟨List.suffix_cons _ _, fun label hlabel => ?_⟩
      exact singleToken?_ne c label (hlabel ▸ hsingle)
    · split at h
      · unfold scanNumber? at h
        dsimp only at h
        split at h
        · cases h
        · obtain ⟨rfl, rfl⟩ := Prod.mk.inj (Option.some.inj h)
          exact .inr ⟨scan_suffix _, fun _ => Token.noConfusion⟩
      · split at h
        · rename_i hstart
          exact .inl ⟨hstart, Option.some.inj h⟩
        · cases h

/-- **A token leaves the end of the text**, and if it is an identifier, its label stands before that. -/
theorem scanToken?_spec {c : Char} {r rest : List Char} {t : Token} (h : scanToken? (c :: r) = some (t, rest)) :
    rest <:+ c :: r ∧ ∀ label, t = .identifier label → label.toList <+ c :: r := by
  rcases scanToken?_cases h with ⟨-, hword⟩ | ⟨hrest, hother⟩
  · obtain ⟨taken, htaken, hlabel⟩ := scanWord_append (c :: r)
    rw [hword] at htaken hlabel
    refine ⟨⟨taken, htaken⟩, fun label hl => ?_⟩
    rw [hlabel label hl]
    conv_rhs => rw [← htaken]
    exact List.sublist_append_left _ _
  · exact ⟨hrest, fun label hl => absurd hl (hother label)⟩

/-- **Every identifier among the tokens of a text has been scanned** somewhere in it. -/
theorem exists_scanToken? {s : List Char} {n : Nat} {tokens : List Token} (h : tokenizeWithin n s = some tokens)
    {label : String} (hlabel : .identifier label ∈ tokens) :
    ∃ c r rest, (c :: r) <+ s ∧ scanToken? (c :: r) = some (.identifier label, rest) := by
  induction n generalizing s tokens with
  | zero =>
    rw [tokenizeWithin] at h
    split at h
    · obtain rfl := Option.some.inj h
      cases hlabel
    · cases h
  | succ n ih =>
    have hgap : s.dropWhile isGap <+ s := List.dropWhile_sublist _
    rw [tokenizeWithin] at h
    split at h
    · obtain rfl := Option.some.inj h
      cases hlabel
    · rename_i c r hfront
      rw [hfront] at hgap
      split at h
      · cases h
      · rename_i t rest hscan
        obtain ⟨others, hothers, rfl⟩ := Option.map_eq_some_iff.mp h
        obtain ⟨hrest, -⟩ := scanToken?_spec hscan
        rcases List.mem_cons.mp hlabel with rfl | hlabel
        · exact ⟨c, r, rest, hgap, hscan⟩
        · obtain ⟨c', r', rest', hsub, hscan'⟩ := ih hothers hlabel
          exact ⟨c', r', rest', hsub.trans (hrest.sublist.trans hgap), hscan'⟩

/-- **The labels of a text are rows of its characters.** -/
theorem label_sublist {s : List Char} {n : Nat} {tokens : List Token} (h : tokenizeWithin n s = some tokens)
    {label : String} (hlabel : .identifier label ∈ tokens) : label.toList <+ s := by
  obtain ⟨c, r, rest, hsub, hscan⟩ := exists_scanToken? h hlabel
  exact ((scanToken?_spec hscan).2 label rfl).trans hsub

/-- **Whatever a text refers to stands in it.** -/
theorem reference_sublist {text label : String} (h : label ∈ references text) : label.toList <+ text.toList := by
  rw [mem_references] at h
  cases htokens : tokenize (trim text.toList) with
  | none =>
    rw [htokens] at h
    cases h
  | some tokens =>
    rw [htokens] at h
    exact (label_sublist htokens h).trans (trim_sublist _)

/-- **Whatever a text refers to starts with a letter or an underscore.** -/
theorem reference_start {text label : String} (h : label ∈ references text) :
    ∃ c r, label.toList = c :: r ∧ isWordStart c := by
  rw [mem_references] at h
  cases htokens : tokenize (trim text.toList) with
  | none =>
    rw [htokens] at h
    cases h
  | some tokens =>
    rw [htokens] at h
    obtain ⟨c, r, rest, -, hscan⟩ := exists_scanToken? htokens h
    obtain ⟨hstart, hword⟩ := (scanToken?_cases hscan).resolve_right fun hother => hother.2 label rfl
    -- The word at the front is not empty, whatever belongs to it.
    unfold scanWord at hword
    dsimp only at hword
    split at hword
    · exact Token.noConfusion (Prod.mk.inj hword).1
    · obtain rfl := Token.identifier.inj (Prod.mk.inj hword).1
      rw [String.toList_ofList, List.takeWhile_cons_of_pos (isWordChar_of_isWordStart hstart)]
      exact ⟨c, _, rfl, hstart⟩

end PathLedger.Expr
