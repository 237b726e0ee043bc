import PathLedger.Proofs.Path.Segments
import PathLedger.Proofs.Selector.Free
import PathLedger.Proofs.Selector.Marks
import PathLedger.Proofs.Text.Parts

/-!
# Reading choices among children

A choice, a range or a filter with nothing behind it gives the public view of every child that it picks: what the index
holds for the child, as it is held.

* `Selector.gatherObject_eq_some` — what an object of gathered values holds.
* `Selector.Names` — what can stand in front of the brackets of a segment; `Selector.split?_bracketed_of_names` splits
  them.
* `Selector.Picks`, `Selector.Sieves` — paths that pick children by their keys, or by a filter.
* `Selector.picks_single` — **a single key in two pairs of brackets picks that child**.
* `View.read_picks`, `View.read_sieves` — **what such paths read as**.
-/

namespace PathLedger

open Text

namespace Selector

/-! ## Keys and projections exclude each other -/

theorem integer?_chars {s : List Char} {n : Int} (h : integer? s = some n) {c : Char} (hc : c ∈ s) :
    c = '-' ∨ isDigit c := by
  have hdigits : ∀ d ∈ if s.head? = some '-' then s.tail else s, isDigit d := by
    simp only [integer?, List.drop_one, Bool.or_eq_true, Bool.not_eq_true', Option.ite_none_left_eq_some, not_or,
      Bool.not_eq_false, List.all_eq_true] at h
    exact h.1.2
  cases s with
  | nil => cases hc
  | cons d r =>
    rcases List.mem_cons.mp hc with rfl | hc
    · by_cases hsign : c = '-'
      · exact .inl hsign
      · rw [List.head?_cons, if_neg (by simpa using hsign)] at hdigits
        exact .inr (hdigits c List.mem_cons_self)
    · refine .inr (hdigits c ?_)
      split
      · exact hc
      · exact List.mem_cons_of_mem d hc

/-- A range has no character of a projection's arrow. -/
theorem not_mem_of_rangeKeys? {s : List Char} {keys : List String} (h : rangeKeys? s = some keys) : '=' ∉ s := by
  simp only [rangeKeys?, bind, Option.bind_eq_some_iff] at h
  obtain ⟨⟨left, right⟩, hsplit, a, ha, b, hb, -⟩ := h
  have hside {side : List Char} {n : Int} (hn : integer? (trim side) = some n) : '=' ∉ side := by
    intro hmem
    obtain ⟨front, back, hside, hfront, hback⟩ := trim_surrounded side
    rw [hside] at hmem
    rcases List.mem_append.mp hmem with hmem | hmem
    · rcases List.mem_append.mp hmem with hmem | hmem
      · exact absurd (hfront _ hmem) (by decide)
      · exact absurd (integer?_chars hn hmem) (by decide)
    · exact absurd (hback _ hmem) (by decide)
  rw [splitOnce_eq_some hsplit]
  simp [hside ha, hside hb]

/-- A selector that names keys is no projection. -/
theorem Transform.parse?_eq_none_of_keys {selector : List Char} {keys : List String} (h : keys? selector = some keys) :
    Transform.parse? selector = none := by
  unfold Transform.parse?
  split
  · rfl
  · rename_i left right hsplit
    have htext := splitOnce_eq_some hsplit
    dsimp only
    rw [if_neg]
    intro hname
    simp only [Bool.and_eq_true] at hname
    unfold keys? at h
    dsimp only at h
    split at h
    · -- The name would start with the bracket.
      rename_i inner hinner
      unfold inBrackets? at hinner
      split at hinner
      · rename_i r hr
        rw [hr] at htext
        cases left with
        | nil => cases htext
        | cons d more =>
          obtain ⟨rfl, -⟩ := List.cons.inj htext
          obtain ⟨t, ht⟩ := trim_cons (c := '[') (by decide) more
          rw [ht] at hname
          have hstart : isWordStart '[' = true := by simpa using hname.1.1
          exact absurd hstart (by decide)
      · cases hinner
    · refine not_mem_of_rangeKeys? h ?_
      rw [htext]
      simp

/-! ## Gathered values -/

section Gather

variable {value : String → Option (Option Value)} {keys : List String}

theorem gather_eq_some {pairs : List (String × Value)} (h : gather value keys = some pairs) (k : String) (v : Value) :
    (k, v) ∈ pairs ↔ k ∈ keys ∧ value k = some (some v) := by
  induction keys generalizing pairs with
  | nil =>
    obtain rfl := Option.some.inj h
    simp
  | cons key rest ih =>
    rw [gather] at h
    obtain ⟨found, hfound, h⟩ := Option.bind_eq_some_iff.mp h
    cases found with
    | none =>
      rw [ih h]
      constructor
      · exact fun hk => ⟨List.mem_cons_of_mem _ hk.1, hk.2⟩
      · rintro ⟨hk, hv⟩
        rcases List.mem_cons.mp hk with rfl | hk
        · rw [hfound] at hv
          cases hv
        · exact ⟨hk, hv⟩
    | some w =>
      obtain ⟨more, hmore, h⟩ := Option.bind_eq_some_iff.mp h
      obtain rfl := Option.some.inj h
      rw [List.mem_cons, ih hmore, List.mem_cons]
      constructor
      · rintro (heq | hk)
        · obtain ⟨rfl, rfl⟩ := Prod.mk.inj heq
          exact ⟨.inl rfl, hfound⟩
        · exact ⟨.inr hk.1, hk.2⟩
      · rintro ⟨rfl | hk, hv⟩
        · rw [hfound] at hv
          obtain rfl := Option.some.inj (Option.some.inj hv)
          exact .inl rfl
        · exact .inr ⟨hk, hv⟩

/-- Where every value is there, or known to be missing, they are gathered. -/
theorem gather_isSome (h : ∀ k, (value k).isSome) (keys : List String) : (gather value keys).isSome := by
  induction keys with
  | nil => rfl
  | cons key rest ih =>
    obtain ⟨found, hfound⟩ := Option.isSome_iff_exists.mp (h key)
    obtain ⟨more, hmore⟩ := Option.isSome_iff_exists.mp ih
    rw [gather, hfound]
    cases found with
    | none => exact ih
    | some v =>
      show (Option.bind (gather value rest) _).isSome
      rw [hmore]
      rfl

/-- **An object of gathered values** holds, under each of the keys, its value. -/
theorem gatherObject_eq_some {v : Value} (h : gatherObject value keys = some v) :
    ∃ fields, v = .object fields ∧ ∀ k, Entries.get? k fields = if k ∈ keys then (value k).join else none := by
  obtain ⟨pairs, hpairs, h⟩ := Option.bind_eq_some_iff.mp h
  obtain rfl := Option.some.inj h
  have hspec := gather_eq_some hpairs
  refine ⟨_, rfl, fun k => ?_⟩
  cases hfound : Entries.get? k (Entries.ofList pairs) with
  | some w =>
    obtain ⟨hk, hw⟩ := (hspec k w).mp (Entries.mem_ofList (Entries.mem_of_get? hfound))
    rw [if_pos hk, hw]
    rfl
  | none =>
    split
    · rename_i hk
      cases hvalue : (value k).join with
      | none => rfl
      | some w =>
        have hmem := (hspec k w).mpr ⟨hk, Option.join_eq_some_iff.mp hvalue⟩
        have hsome := Entries.get?_ofList_isSome hmem
        rw [hfound] at hsome
        cases hsome
    · rfl

theorem gatherObject_isSome (h : ∀ k, (value k).isSome) (keys : List String) : (gatherObject value keys).isSome := by
  obtain ⟨pairs, hpairs⟩ := Option.isSome_iff_exists.mp (gather_isSome h keys)
  rw [gatherObject, hpairs]
  rfl

theorem gatherObject_single {k : String} {v : Value} (h : value k = some (some v)) :
    gatherObject value [k] = some (.object [(k, v)]) := by
  unfold gatherObject gather gather
  rw [h]
  rfl

end Gather

/-! ## Paths that pick children -/

theorem firstSegment?_append {α : Type} {read : String → Option α} {front : List String} {s : String} {a : α}
    (hfront : ∀ t ∈ front, read t = none) (hs : read s = some a) (rest : List String) :
    firstSegment? read (front ++ s :: rest) = some (front.length, a) := by
  induction front with
  | nil => simp only [List.nil_append, firstSegment?, hs, List.length_nil]
  | cons t front ih =>
    obtain ⟨ht, hmore⟩ := List.forall_mem_cons.mp hfront
    simp only [List.cons_append, firstSegment?, ht, ih hmore, Option.map_some, List.length_cons]

/-- A raw path that names children of a collection by a choice or a range in its last segment. -/
def Picks (p collection : Path) (keys : List String) : Prop :=
  ∃ position base, firstSegment? (selectorOf? keys?) p.segments = some (position, base, keys) ∧
    position + 1 = p.length ∧ collectionAt p position base = collection

/-- A raw path that is read as a filter over the children of a collection, with nothing behind it. -/
structure Sieves (p collection : Path) (filter : Filter) : Prop where
  transform : ∀ found, firstSegment? (selectorOf? Transform.parse?) p.segments = some found → found.1 + 1 ≠ p.length
  selection : firstSegment? (selectorOf? keys?) p.segments = none
  last : ∃ segment, p.normalize = collection.child segment ∧ Filter.parse? segment.toList = some filter

/-! ### A single key -/

theorem isBlank_of_mem_getLast?_bracketed (front inner : List Char) :
    ∀ c ∈ (front ++ Path.bracketed inner).getLast?, isBlank c = false := by
  intro c hc
  rw [Path.bracketed, ← List.cons_append, ← List.append_assoc, List.getLast?_concat] at hc
  obtain rfl := Option.some.inj hc
  decide

theorem trim_bracketed (inner : List Char) : trim (Path.bracketed inner) = Path.bracketed inner := by
  refine trim_of_ends (fun c hc => ?_) (isBlank_of_mem_getLast?_bracketed [] inner)
  obtain rfl := Option.some.inj hc
  decide

theorem trim_word_bracketed {base : String} (hbase : isWord base) (inner : List Char) :
    trim (base.toList ++ Path.bracketed inner) = base.toList ++ Path.bracketed inner := by
  obtain ⟨hne, hplain⟩ := isWord_iff.mp hbase
  refine trim_of_ends (fun c hc => ?_) (isBlank_of_mem_getLast?_bracketed base.toList inner)
  rw [List.head?_append_of_ne_nil _ (by simpa using hne)] at hc
  exact isBlank_of_isPlain (hplain c (List.mem_of_mem_head? hc))

/-- What can stand in front of the brackets of a segment: more than blanks, and no bracket opens in it. -/
def Names (base : String) : Prop := trim base.toList ≠ [] ∧ '[' ∉ base.toList

theorem names_of_isWord {base : String} (h : isWord base) : Names base := by
  obtain ⟨hne, hplain⟩ := isWord_iff.mp h
  refine ⟨?_, not_mem_of_isPlain hplain (by decide)⟩
  rw [trim_plain hplain]
  simpa using hne

/-- A name with brackets behind it is split there. -/
theorem split?_bracketed_of_names {base : String} (hbase : Names base) {inner : List Char} (hinner : trim inner ≠ []) :
    split? (base ++ String.ofList (Path.bracketed inner)) =
      some (String.ofList (trim base.toList), trim inner) := by
  obtain ⟨hsome, hbracket⟩ := hbase
  obtain ⟨c, r, hstart⟩ := List.exists_cons_of_ne_nil hsome
  have hc : c ∈ base.toList := (trim_sublist base.toList).subset (hstart ▸ List.mem_cons_self)
  have hblank : isBlank c = false := isBlank_of_mem_head?_trim (by rw [hstart]; rfl)
  have htrim : trim (base.toList ++ Path.bracketed inner) = trimStart base.toList ++ Path.bracketed inner := by
    rw [trim, trimStart_append hc hblank]
    exact trimEnd_of_last (isBlank_of_mem_getLast?_bracketed (trimStart base.toList) inner)
  have hfront : '[' ∉ trimStart base.toList := fun h => hbracket ((List.dropWhile_sublist _).subset h)
  obtain ⟨htake, hdrop⟩ := takeWhile_ne hfront (inner ++ [']'])
  rw [split?, String.toList_append, String.toList_ofList, htrim, Path.bracketed, htake, hdrop]
  simp [trim_trimStart, hsome, hinner]

/-- A word with brackets behind it is split there. -/
theorem split?_bracketed {base : String} (hbase : isWord base) {inner : List Char} (hinner : trim inner ≠ []) :
    split? (base ++ String.ofList (Path.bracketed inner)) = some (base, trim inner) := by
  rw [split?_bracketed_of_names (names_of_isWord hbase) hinner, trim_plain (isWord_iff.mp hbase).2,
    String.ofList_toList]

theorem keys?_single {k : String} (hk : isWord k) : keys? (Path.bracketed k.toList) = some [k] := by
  obtain ⟨hne, hplain⟩ := isWord_iff.mp hk
  have hinside : inBrackets? (Path.bracketed k.toList) = some k.toList := by simp [inBrackets?, Path.bracketed]
  have hunquoted : unquote k.toList = k.toList := by
    cases hk : k.toList with
    | nil => rfl
    | cons c r =>
      have hc : isPlain c := hplain c (hk ▸ List.mem_cons_self)
      rw [unquote, if_neg]
      simp [ne_of_isPlain hc (d := '"') (by decide), ne_of_isPlain hc (d := '\'') (by decide)]
  have hkeys : keyList k.toList = [k] := by
    rw [keyList, splitAll_of_not_mem (not_mem_of_isPlain hplain (by decide)), List.map_singleton, trim_plain hplain]
    simp [hne, hunquoted]
  rw [keys?, trim_bracketed, hinside]
  exact congrArg some hkeys

/-- **A single key in two pairs of brackets** picks the child of that key. -/
theorem picks_single {c : Path} (hc : c.Plain) (hroot : c.isRoot = false) {k : String} (hk : isWord k) :
    Picks (Path.parse (c.key ++ String.ofList (Path.bracketed (Path.bracketed k.toList)))) c [k] := by
  obtain ⟨segments⟩ := c
  rcases List.eq_nil_or_concat' segments with rfl | ⟨front, base, rfl⟩
  · cases hroot
  have hfront : ∀ s ∈ front, isWord s := fun s hs => isWord_iff.mpr (hc s (List.mem_append_left _ hs))
  have hbase : isWord base := isWord_iff.mpr (hc base (by simp))
  generalize hselector : String.ofList (Path.bracketed (Path.bracketed k.toList)) = selector
  have hwhole : Path.Whole (base ++ selector) := by
    refine ⟨?_, ?_, ?_⟩
    · rw [String.toList_append, ← hselector, String.toList_ofList]
      exact (Path.kept_of_isWord hbase).append (Path.kept_of_isWord hk).bracketed.bracketed
    · rw [String.toList_append, ← hselector, String.toList_ofList]
      exact trim_word_bracketed hbase _
    · simp [(isWord_iff.mp hbase).1]
  have hparse : Path.parse (Path.key ⟨front ++ [base]⟩ ++ selector) = ⟨front ++ [base ++ selector]⟩ := by
    rw [Path.key, ← Path.joinSegments_concat_append]
    refine Path.parse_joinSegments (fun s hs => ?_) (by simp)
    rcases List.mem_append.mp hs with hs | hs
    · exact Path.whole_of_isWord (hfront s hs)
    · obtain rfl := List.mem_singleton.mp hs
      exact hwhole
  have hread : selectorOf? keys? (base ++ selector) = some (base, [k]) := by
    have hsome : trim (Path.bracketed k.toList) ≠ [] := by
      rw [trim_bracketed]
      exact List.cons_ne_nil _ _
    rw [selectorOf?, ← hselector, split?_bracketed hbase hsome, trim_bracketed]
    simp [keys?_single hk]
  have hnormal : Path.normalize ⟨front⟩ = ⟨front⟩ := Path.normalize_plain fun s hs => hc s (List.mem_append_left _ hs)
  rw [hparse]
  refine ⟨front.length, base, firstSegment?_append (fun t ht => ?_) hread [], ?_, ?_⟩
  · rw [selectorOf?, split?_plain (hc t (List.mem_append_left _ ht)).2]
  · simp [Path.length]
  · rw [collectionAt, Path.take, List.take_left, hnormal]
    rfl

section Read

variable {m : Type → Type} [Monad m] (r : Resolver m) (index : Index) {p collection : Path}

theorem readTransform_eq_none
    (h : ∀ found, firstSegment? (selectorOf? Transform.parse?) p.segments = some found → found.1 + 1 ≠ p.length) :
    readTransform r index p = pure none := by
  unfold readTransform
  split
  · rfl
  · rename_i position base transform hfound
    exact if_neg (h _ hfound)

/-- A path that picks children by their keys has no projection at its end. -/
theorem Picks.transform {keys : List String} (h : Picks p collection keys) (found : Nat × String × Transform)
    (hfound : firstSegment? (selectorOf? Transform.parse?) p.segments = some found) : found.1 + 1 ≠ p.length := by
  obtain ⟨position, base, hkeys, hlast, -⟩ := h
  intro hend
  obtain ⟨segment, hsegment, hread⟩ := firstSegment?_eq_some hfound
  obtain ⟨other, hother, hread'⟩ := firstSegment?_eq_some hkeys
  obtain rfl : found.1 = position := by omega
  rw [hsegment] at hother
  obtain rfl := Option.some.inj hother
  unfold selectorOf? at hread hread'
  split at hread
  · cases hread
  · rename_i base' selector hsplit
    rw [hsplit] at hread'
    obtain ⟨_, hnamed, _⟩ := Option.map_eq_some_iff.mp hread'
    rw [Transform.parse?_eq_none_of_keys hnamed] at hread
    cases hread

theorem readBelow_root {scope suffix : Path} (h : suffix.isRoot) :
    readBelow r index scope suffix = pure (index.subtree scope) := if_pos h

theorem Picks.readSelection {keys : List String} (h : Picks p collection keys) :
    readSelection r index p = do
      return some (← gatherObject (fun key => pure (index.subtree (collection.child key))) keys) := by
  obtain ⟨position, base, hkeys, hlast, rfl⟩ := h
  rw [Selector.readSelection, hkeys]
  simp only [readBelow_root r index (Path.isRoot_drop (Nat.le_of_eq hlast.symm))]

theorem Sieves.readFilter {filter : Filter} (h : Sieves p collection filter) (hplain : collection.Plain)
    (hroot : collection.isRoot = false) :
    readFilter r index p.normalize = do
      return some (← gatherObject (fun child => do
        if ← filter.matchesAt r (collection.child child) then pure (index.subtree (collection.child child))
        else pure none) (index.childrenOf collection)) := by
  obtain ⟨segment, hnormal, hfilter⟩ := h.last
  have hfound : firstSegment? (fun s => Filter.parse? s.toList) p.normalize.segments =
      some (collection.length, filter) := by
    rw [hnormal]
    exact firstSegment?_append (fun t ht => Filter.parse?_plain (hplain t ht).2) hfilter []
  have hbehind : ((collection.child segment).drop (collection.length + 1)).isRoot :=
    Path.isRoot_drop (Nat.le_of_eq (collection.length_child segment))
  have hposition : collection.length ≠ 0 := Nat.ne_of_gt (Path.length_pos hroot)
  rw [Selector.readFilter, hfound]
  dsimp only
  rw [if_neg hposition, hnormal, Path.take_child]
  simp only [readBelow_root r index hbehind]

end Read

end Selector

namespace View

open Selector

variable (view : View) {p collection : Path}

/-- A path that picks children by their keys reads as the object that is gathered from their public views. -/
theorem read_eq_gatherObject {keys : List String} (h : Picks p collection keys) :
    view.read p = some <$> gatherObject (m := Option)
      (fun key => some (view.index.subtree (collection.child key))) keys := by
  have hshown (key : String) : (some (view.index.subtree (collection.child key))).isSome := rfl
  obtain ⟨v, hv⟩ := Option.isSome_iff_exists.mp (gatherObject_isSome hshown keys)
  have hselection : readSelection (view.inner view.reading) view.index p = some (some v) := by
    rw [h.readSelection]
    exact Option.bind_eq_some_iff.mpr ⟨_, hv, rfl⟩
  rw [hv, read, reading, readStep, readTransform_eq_none _ _ h.transform, hselection]
  rfl

/-- **A path that picks children by their keys** reads as the object of their public views. -/
theorem read_picks {keys : List String} (h : Picks p collection keys) :
    ∃ fields, view.read p = some (some (.object fields)) ∧
      ∀ k, Entries.get? k fields = if k ∈ keys then view.index.subtree (collection.child k) else none := by
  have hshown (key : String) : (some (view.index.subtree (collection.child key))).isSome := rfl
  obtain ⟨v, hv⟩ := Option.isSome_iff_exists.mp (gatherObject_isSome hshown keys)
  obtain ⟨fields, rfl, hfields⟩ := gatherObject_eq_some hv
  exact ⟨fields, (view.read_eq_gatherObject h).trans (congrArg (some <$> ·) hv), hfields⟩

/-- **A path that picks children by a filter** reads as an object of public views, if its read comes to an end. -/
theorem read_sieves {filter : Filter} (h : Sieves p collection filter) (hplain : collection.Plain)
    (hroot : collection.isRoot = false) {v : Value} (hread : view.read p = some (some v)) :
    ∃ fields, v = .object fields ∧
      ∀ k w, Entries.get? k fields = some w → view.index.subtree (collection.child k) = some w := by
  have hselection : readSelection (view.inner view.reading) view.index p = some none := by
    rw [readSelection, h.selection]
    rfl
  rw [read, reading, readStep, readTransform_eq_none _ _ h.transform, hselection,
    h.readFilter _ _ hplain hroot] at hread
  generalize hvalue : (fun child => do
    if ← filter.matchesAt (view.inner view.reading) (collection.child child) then
      pure (view.index.subtree (collection.child child))
    else pure none : String → Option (Option Value)) = value at hread
  cases hobject : gatherObject value (view.index.childrenOf collection) with
  | none =>
    rw [hobject] at hread
    cases hread
  | some found =>
    rw [hobject] at hread
    obtain rfl := Option.some.inj (Option.some.inj hread)
    obtain ⟨fields, rfl, hfields⟩ := gatherObject_eq_some hobject
    refine ⟨fields, rfl, fun k w hw => ?_⟩
    rw [hfields, Option.ite_none_right_eq_some] at hw
    have hpicked := Option.join_eq_some_iff.mp hw.2
    rw [← hvalue] at hpicked
    obtain ⟨passes, -, hpasses⟩ := Option.bind_eq_some_iff.mp hpicked
    split at hpasses
    · exact Option.some.inj hpasses
    · cases hpasses

end View

end PathLedger
