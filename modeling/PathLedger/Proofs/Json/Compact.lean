import PathLedger.Proofs.Json.Quoted
import PathLedger.Proofs.Number.Written

/-!
# Documents are read in one way

The compact text of a document determines the document, as far as the words in it go: nulls, truth values and numbers
are told by their texts. The first character of a document tells whether it is a word, a text, an array or an object.
A word ends where a character comes that no word has, and what stands behind a member of an array or an object is such
a character.

* `Json.bare_compact` — words are texts of certain characters only, and not empty.
* `Json.Alike` — documents that differ in words of the same text at most.
* `Json.compact_opens` — the first character of a document tells its shape.
* `Json.compact_inj` — **a document is read off its text in one way**, whatever follows it.
-/

namespace PathLedger.Json

/-! ### Words -/

/-- The characters of words: of null, truth values and numbers. -/
def isBare (c : Char) : Bool := c.isAlphanum || c == '.' || c == '-' || c == '+'

/-- What a document is written as. -/
inductive Shape where
  | word
  | text
  | array
  | object
deriving DecidableEq, Repr

def shape : Json → Shape
  | .str _ => .text
  | .arr _ => .array
  | .obj _ => .object
  | _ => .word

/-- The shape of the documents that a character opens. -/
def opens? (c : Char) : Option Shape :=
  if isBare c then some .word
  else if c = '"' then some .text
  else if c = '[' then some .array
  else if c = '\x7b' then some .object
  else none

/-- A text of characters that words have. -/
def Bare (s : List Char) : Prop := ∀ c ∈ s, isBare c

theorem Bare.append {s t : List Char} (hs : Bare s) (ht : Bare t) : Bare (s ++ t) :=
  List.forall_mem_append.mpr ⟨hs, ht⟩

theorem Bare.cons {c : Char} {s : List Char} (hc : isBare c) (hs : Bare s) : Bare (c :: s) :=
  List.forall_mem_cons.mpr ⟨hc, hs⟩

theorem bare_nil : Bare [] := nofun

theorem bare_of_all {s : List Char} (h : s.all isBare) : Bare s := List.all_eq_true.mp h

theorem bare_digits {ds : List Char} (h : ∀ c ∈ ds, Text.isDigit c) : Bare ds := by
  intro c hc
  have hdigit : c.isDigit := h c hc
  rw [isBare, Char.isAlphanum, hdigit]
  simp

theorem bare_nat (n : Nat) : Bare (toString n).toList := bare_digits fun _ => Text.isDigit_of_mem_toString

theorem bare_pieces {p : Decimal.Pieces} (h : p.Clean) : Bare p.chars := by
  refine (bare_digits h.whole).append (Bare.append ?_ ?_)
  · cases hfraction : p.fraction with
    | none => exact bare_nil
    | some ds => exact .cons (by decide) (bare_digits (h.fraction ds hfraction))
  · cases hexponent : p.exponent with
    | none => exact bare_nil
    | some e =>
      have hsign : isBare (if e.1 then '-' else '+') := by
        cases e.1 <;> decide
      exact .cons (by decide) (.cons hsign (bare_digits (h.exponent e hexponent).1))

theorem bare_numberText (x : Binary64) : Bare (numberText x).toList := by
  unfold numberText
  split
  · have hsign : Bare (if x.isNegative then "-" else "").toList := by
      split
      · exact bare_of_all (by decide)
      · exact bare_nil
    unfold FloatLayout.write
    dsimp only
    split
    · rw [String.toList_append, String.toList_append, List.append_assoc]
      exact hsign.append (bare_of_all (by decide))
    · obtain ⟨p, -, hclean, -, htext, -⟩ := FloatLayout.place_spells (Shortest.digits x).1 (Shortest.digits x).2
      rw [String.toList_append, htext]
      exact hsign.append (bare_pieces hclean)
  · exact bare_of_all (by decide)

theorem bare_int (n : Int) : Bare (toString n).toList := by
  cases n with
  | ofNat n => exact bare_nat n
  | negSucc n =>
    rw [Text.toString_negSucc]
    exact .cons (by decide) (bare_nat _)

/-- The text of a word. -/
theorem bare_compact {j : Json} (h : j.shape = .word) : Bare j.compact.toList := by
  cases j with
  | null => exact bare_of_all (by decide)
  | bool b =>
    cases b
    · exact bare_of_all (by decide)
    · exact bare_of_all (by decide)
  | int n => exact bare_int n
  | real x => exact bare_numberText x
  | str s => cases h
  | arr items => cases h
  | obj fields => cases h

theorem compact_ne_nil {j : Json} (h : j.shape = .word) : j.compact.toList ≠ [] := by
  cases j with
  | null => decide
  | bool b => cases b <;> decide
  | int n =>
    cases n with
    | ofNat n => exact Text.toString_ne_nil n
    | negSucc n =>
      show ("-" ++ toString (n + 1)).toList ≠ []
      rw [String.toList_append]
      exact List.append_ne_nil_of_left_ne_nil (by decide) _
  | real x =>
    show (numberText x).toList ≠ []
    unfold numberText
    split
    · rename_i hfinite
      intro hnil
      have hread := FloatLayout.read?_write hfinite
      rw [hnil] at hread
      cases hread
    · decide
  | str s => cases h
  | arr items => cases h
  | obj fields => cases h

/-! ### Documents -/

mutual

/-- Whether two documents differ in words of the same text at most. -/
def Alike : Json → Json → Prop
  | .str s, .str t => s = t
  | .arr l, .arr m => ItemsAlike l m
  | .obj l, .obj m => FieldsAlike l m
  | a, b => a.shape = .word ∧ b.shape = .word ∧ a.compact = b.compact

def ItemsAlike : List Json → List Json → Prop
  | [], [] => True
  | a :: l, b :: m => Alike a b ∧ ItemsAlike l m
  | _, _ => False

def FieldsAlike : List (String × Json) → List (String × Json) → Prop
  | [], [] => True
  | (k, a) :: l, (n, b) :: m => k = n ∧ Alike a b ∧ FieldsAlike l m
  | _, _ => False

end

theorem eq_str_of_shape {j : Json} (h : j.shape = .text) : ∃ s, j = .str s := by
  cases j with
  | str s => exact ⟨s, rfl⟩
  | _ => cases h

theorem eq_arr_of_shape {j : Json} (h : j.shape = .array) : ∃ items, j = .arr items := by
  cases j with
  | arr items => exact ⟨items, rfl⟩
  | _ => cases h

theorem eq_obj_of_shape {j : Json} (h : j.shape = .object) : ∃ fields, j = .obj fields := by
  cases j with
  | obj fields => exact ⟨fields, rfl⟩
  | _ => cases h

theorem compact_str (s : String) : (compact (.str s)).toList = '"' :: (s.toList.flatMap escapeChar ++ ['"']) := by
  rw [compact, quote, String.toList_ofList]
  rfl

theorem compact_arr (items : List Json) :
    (compact (.arr items)).toList = '[' :: ((compactItems items).toList ++ [']']) := by
  rw [compact, String.toList_append, String.toList_append]
  rfl

theorem compact_obj (fields : List (String × Json)) :
    (compact (.obj fields)).toList = '\x7b' :: ((compactFields fields).toList ++ ['\x7d']) := by
  rw [compact, String.toList_append, String.toList_append]
  rfl

/-- The first character of a document tells its shape. -/
theorem compact_opens (j : Json) : ∃ c r, j.compact.toList = c :: r ∧ opens? c = some j.shape := by
  cases hshape : j.shape with
  | word =>
    obtain ⟨c, r, h⟩ := List.exists_cons_of_ne_nil (compact_ne_nil hshape)
    have hc := bare_compact hshape c (by rw [h]; exact List.mem_cons_self)
    exact ⟨c, r, h, by rw [opens?, if_pos hc]⟩
  | text =>
    obtain ⟨s, rfl⟩ := eq_str_of_shape hshape
    exact ⟨_, _, compact_str s, by decide⟩
  | array =>
    obtain ⟨items, rfl⟩ := eq_arr_of_shape hshape
    exact ⟨_, _, compact_arr items, by decide⟩
  | object =>
    obtain ⟨fields, rfl⟩ := eq_obj_of_shape hshape
    exact ⟨_, _, compact_obj fields, by decide⟩

/-- Documents whose texts start alike have one shape. -/
theorem shape_eq {a b : Json} {s t : List Char} (h : a.compact.toList ++ s = b.compact.toList ++ t) :
    a.shape = b.shape := by
  obtain ⟨c, r, hc, hshape⟩ := a.compact_opens
  obtain ⟨d, q, hd, hshape'⟩ := b.compact_opens
  rw [hc, hd, List.cons_append, List.cons_append] at h
  rw [(List.cons.inj h).1, hshape'] at hshape
  exact (Option.some.inj hshape).symm

@[simp]
theorem alike_str {s t : String} : Alike (.str s) (.str t) ↔ s = t := by rw [Alike]

@[simp]
theorem alike_arr {l m : List Json} : Alike (.arr l) (.arr m) ↔ ItemsAlike l m := by rw [Alike]

@[simp]
theorem alike_obj {l m : List (String × Json)} : Alike (.obj l) (.obj m) ↔ FieldsAlike l m := by rw [Alike]

@[simp]
theorem not_alike_str_obj {s : String} {l : List (String × Json)} : ¬Alike (.str s) (.obj l) := nofun

@[simp]
theorem not_alike_obj_str {s : String} {l : List (String × Json)} : ¬Alike (.obj l) (.str s) := nofun

@[simp]
theorem fieldsAlike_nil : FieldsAlike [] [] := trivial

@[simp]
theorem fieldsAlike_cons {k n : String} {a b : Json} {l m : List (String × Json)} :
    FieldsAlike ((k, a) :: l) ((n, b) :: m) ↔ k = n ∧ a.Alike b ∧ FieldsAlike l m := by rw [FieldsAlike]

/-- A text that starts with no character of a word. -/
def Stops (s : List Char) : Prop := ∀ c ∈ s.head?, isBare c = false

theorem takeWhile_bare {u s : List Char} (hu : Bare u) (hs : Stops s) : (u ++ s).takeWhile isBare = u := by
  have hnil : s.takeWhile isBare = [] := by
    cases s with
    | nil => rfl
    | cons c r => exact List.takeWhile_cons_of_neg (by rw [hs c rfl]; exact Bool.false_ne_true)
  exact Text.takeWhile_front hu hnil

theorem words_inj {u v s t : List Char} (hu : Bare u) (hv : Bare v) (hs : Stops s) (ht : Stops t)
    (h : u ++ s = v ++ t) : u = v ∧ s = t := by
  have huv := congrArg (List.takeWhile isBare) h
  rw [takeWhile_bare hu hs, takeWhile_bare hv ht] at huv
  subst huv
  exact ⟨rfl, List.append_cancel_left h⟩

/-- The members of an array or an object behind the first, when `f` writes a row of them. -/
def tail (f : List α → String) : List α → String
  | [] => ""
  | a :: r => "," ++ f (a :: r)

theorem toList_tail (f : List α → String) (a : α) (r : List α) :
    (tail f (a :: r)).toList = ',' :: (f (a :: r)).toList := by
  rw [tail, String.toList_append]
  rfl

theorem stops_cons {c : Char} (h : isBare c = false) (s : List Char) : Stops (c :: s) := by
  intro d hd
  cases hd
  exact h

theorem stops_tail (f : List α → String) {close : Char} (hclose : isBare close = false) (l : List α)
    (s : List Char) : Stops ((tail f l).toList ++ close :: s) := by
  cases l with
  | nil => exact stops_cons hclose s
  | cons a r =>
    rw [toList_tail]
    exact stops_cons (by decide) _

/-- Behind the first member, both rows are at their ends or both go on. -/
theorem tail_inj {f : List α → String} {close : Char} (hclose : close ≠ ',') {l m : List α} {s t : List Char}
    (h : (tail f l).toList ++ close :: s = (tail f m).toList ++ close :: t) :
    (l = [] ∧ m = [] ∧ s = t) ∨ (f l).toList ++ close :: s = (f m).toList ++ close :: t := by
  cases l with
  | nil =>
    cases m with
    | nil => exact .inl ⟨rfl, rfl, (List.cons.inj h).2⟩
    | cons b m =>
      rw [toList_tail] at h
      exact absurd (List.cons.inj h).1 hclose
  | cons a l =>
    cases m with
    | nil =>
      rw [toList_tail] at h
      exact absurd (List.cons.inj h).1.symm hclose
    | cons b m =>
      rw [toList_tail, toList_tail] at h
      exact .inr (List.cons.inj h).2

theorem compactItems_cons (item : Json) (rest : List Json) :
    (compactItems (item :: rest)).toList = item.compact.toList ++ (tail compactItems rest).toList := by
  cases rest with
  | nil => rw [compactItems, tail, String.toList_empty, List.append_nil]
  | cons a r => rw [compactItems, tail, String.append_assoc, String.toList_append]; simp

theorem compactFields_cons (name : String) (content : Json) (rest : List (String × Json)) :
    (compactFields ((name, content) :: rest)).toList =
      '"' :: (name.toList.flatMap escapeChar ++
        '"' :: ':' :: (content.compact.toList ++ (tail compactFields rest).toList)) := by
  have hquote : (quote name).toList = '"' :: (name.toList.flatMap escapeChar ++ ['"']) := compact_str name
  cases rest with
  | nil => simp [compactFields, tail, hquote]
  | cons a r => simp [compactFields, tail, hquote]

/-- No document starts with a closing bracket. -/
theorem compact_append_ne (j : Json) (r s : List Char) : j.compact.toList ++ r ≠ ']' :: s := by
  intro h
  obtain ⟨c, q, hc, hopens⟩ := j.compact_opens
  rw [hc, List.cons_append] at h
  have hnone : opens? ']' = none := by decide
  rw [(List.cons.inj h).1, hnone] at hopens
  cases hopens

/-- A word is read off its text in one way. -/
theorem word_inj {a b : Json} (ha : a.shape = .word) {s t : List Char} (hs : Stops s) (ht : Stops t)
    (h : a.compact.toList ++ s = b.compact.toList ++ t) : a.Alike b ∧ s = t := by
  have hb : b.shape = .word := (shape_eq h).symm.trans ha
  obtain ⟨htext, hst⟩ := words_inj (bare_compact ha) (bare_compact hb) hs ht h
  have htext := String.toList_inj.mp htext
  refine ⟨?_, hst⟩
  cases a <;> cases b <;> first | exact ⟨ha, hb, htext⟩ | cases ha

mutual

/-- **A document is read off its text in one way**, whatever follows it. -/
theorem compact_inj : ∀ (a b : Json) {s t : List Char}, Stops s → Stops t →
    a.compact.toList ++ s = b.compact.toList ++ t → a.Alike b ∧ s = t
  | .str x, b => by
    intro _ _ h
    obtain ⟨y, rfl⟩ := eq_str_of_shape (shape_eq h).symm
    rw [compact_str, compact_str] at h
    simp only [List.cons_append, List.append_assoc, List.nil_append, List.cons.injEq, true_and] at h
    obtain ⟨hxy, hst⟩ := quoted_inj h
    exact ⟨String.toList_inj.mp hxy, hst⟩
  | .arr l, b => by
    intro _ _ h
    obtain ⟨m, rfl⟩ := eq_arr_of_shape (shape_eq h).symm
    rw [compact_arr, compact_arr] at h
    simp only [List.cons_append, List.append_assoc, List.nil_append, List.cons.injEq, true_and] at h
    exact items_inj l m h
  | .obj l, b => by
    intro _ _ h
    obtain ⟨m, rfl⟩ := eq_obj_of_shape (shape_eq h).symm
    rw [compact_obj, compact_obj] at h
    simp only [List.cons_append, List.append_assoc, List.nil_append, List.cons.injEq, true_and] at h
    exact fields_inj l m h
  | .null, _ => word_inj rfl
  | .bool _, _ => word_inj rfl
  | .int _, _ => word_inj rfl
  | .real _, _ => word_inj rfl

theorem items_inj : ∀ (l m : List Json) {s t : List Char},
    (compactItems l).toList ++ ']' :: s = (compactItems m).toList ++ ']' :: t → ItemsAlike l m ∧ s = t
  | [], [] => fun h => ⟨trivial, (List.cons.inj h).2⟩
  | [], b :: m => by
    intro h
    rw [compactItems_cons, List.append_assoc] at h
    exact absurd h.symm (compact_append_ne _ _ _)
  | a :: l, [] => by
    intro h
    rw [compactItems_cons, List.append_assoc] at h
    exact absurd h (compact_append_ne _ _ _)
  | a :: l, b :: m => by
    intro h
    rw [compactItems_cons, compactItems_cons, List.append_assoc, List.append_assoc] at h
    obtain ⟨hab, hrest⟩ := compact_inj a b (stops_tail _ (by decide) l _) (stops_tail _ (by decide) m _) h
    obtain ⟨rfl, rfl, hst⟩ | hrest := tail_inj (by decide) hrest
    · exact ⟨⟨hab, trivial⟩, hst⟩
    · obtain ⟨hlm, hst⟩ := items_inj l m hrest
      exact ⟨⟨hab, hlm⟩, hst⟩

theorem fields_inj : ∀ (l m : List (String × Json)) {s t : List Char},
    (compactFields l).toList ++ '\x7d' :: s = (compactFields m).toList ++ '\x7d' :: t → FieldsAlike l m ∧ s = t
  | [], [] => fun h => ⟨trivial, (List.cons.inj h).2⟩
  | [], (n, b) :: m => by
    intro h
    rw [compactFields_cons] at h
    exact absurd (List.cons.inj h).1 (by decide)
  | (k, a) :: l, [] => by
    intro h
    rw [compactFields_cons] at h
    exact absurd (List.cons.inj h).1 (by decide)
  | (k, a) :: l, (n, b) :: m => by
    intro h
    rw [compactFields_cons, compactFields_cons] at h
    simp only [List.cons_append, List.append_assoc, List.cons.injEq, true_and] at h
    obtain ⟨hkn, hcontent⟩ := quoted_inj h
    have hkn := String.toList_inj.mp hkn
    obtain ⟨hab, hrest⟩ := compact_inj a b (stops_tail _ (by decide) l _) (stops_tail _ (by decide) m _)
      (List.cons.inj hcontent).2
    obtain ⟨rfl, rfl, hst⟩ | hrest := tail_inj (by decide) hrest
    · exact ⟨⟨hkn, hab, trivial⟩, hst⟩
    · obtain ⟨hlm, hst⟩ := fields_inj l m hrest
      exact ⟨⟨hkn, hab, hlm⟩, hst⟩

end

/-- Documents of one text differ in words of the same text at most. -/
theorem alike_of_compact {a b : Json} (h : a.compact = b.compact) : a.Alike b := by
  have hstops : Stops [] := nofun
  exact (compact_inj a b hstops hstops (by rw [h])).1

end PathLedger.Json
