import PathLedger.Proofs.Entries
import PathLedger.Proofs.Index.Below
import PathLedger.Proofs.Index.Uncovered
import PathLedger.Proofs.Path.Keys
import PathLedger.Proofs.Selector.Marks
import PathLedger.Proofs.Store.Bounded
import PathLedger.Proofs.Store.Derivations
import PathLedger.Proofs.Store.Transparency

/-!
# Reads come to an end

A read starts further reads: for its selectors, of paths with fewer selector characters and with a budget of their
own; and behind pointers, of paths with no more such characters, which take from the budget. Where neither keys nor
pointers bring in new selectors, the characters and the budget together bound every row of reads, cycles of pointers
included. That a read has ended is said by comparing it with itself to a greater depth.

* `View.Unmarked` — neither keys nor the targets of pointers hold a character of selectors.
* `Simulation.meets` — two runs both end, with one result.
* `View.evaluate_meet`, `View.matchesAt_meet` — evaluation and filters, where the reads they start meet.
* `View.readStep_meet` — **one read**, where the reads meet that it starts.
* `View.readWith_meet` — **every row of reads**, by induction on the depth.
* `Store.read_terminates` — **every read of every text ends** within a depth for its characters.
* `Store.isSome_valueOf` — **every evaluation of every formula ends**.
* `Store.deriveAt_of_unmarked` — so a formula that is derived is registered and computed.
-/

namespace PathLedger

open Text

/-- A text holds none of the characters of selectors. -/
def Unmarked (text : String) : Prop := ∀ c ∈ text.toList, View.isSelectorChar c = false

instance (text : String) : Decidable (Unmarked text) := List.decidableBAll _ text.toList

theorem Unmarked.marks {text : String} (h : Unmarked text) : marks text.toList = 0 := marks_eq_zero h

/-- Neither a key of the index nor the target of a pointer, in the index or in a branch that opens, holds a character of
selectors. -/
structure View.Unmarked (view : View) : Prop where
  index : ∀ e ∈ view.index.entries, PathLedger.Unmarked e.1 ∧ ∀ target ∈ e.2.asPointer?, PathLedger.Unmarked target
  branches : ∀ scope v, view.openBranch? scope = some v →
    ∀ names target, Value.lookupAt names v = some (.pointer target) → PathLedger.Unmarked target

/-- Without branches only the index counts. -/
theorem View.unmarked_of_entries {view : View} {entries : List (String × Value)} (hbranches : view.branches = .empty)
    (hentries : view.index.entries = entries)
    (h : ∀ e ∈ entries, PathLedger.Unmarked e.1 ∧ ∀ target ∈ e.2.asPointer?, PathLedger.Unmarked target) :
    view.Unmarked := by
  refine ⟨hentries ▸ h, fun scope v hopen => ?_⟩
  rw [openBranch?, hbranches] at hopen
  split at hopen <;> cases hopen

/-- Both runs end, with one result. -/
def Simulation.meets : Simulation Option Option where
  Holds x y := ∃ a, x = some a ∧ y = some a
  result a := ⟨a, rfl, rfl⟩
  next {_ _ x y f g} h hnext := by
    obtain ⟨a, rfl, rfl⟩ := h
    exact hnext a

/-! ## What a read starts -/

namespace View

open Selector Simulation

/-- The runs of further reads meet for paths with fewer characters of selectors. -/
def MeetBelow (next next' : Next Option) (k : Nat) : Prop :=
  ∀ q, selectorChars q < k → meets.Holds (next q maxHops) (next' q maxHops)

variable {view : View} {next next' : Next Option} {k : Nat} {scope : Path}

theorem resolveIdentifier_meet (hview : view.Unmarked) (h : MeetBelow next next' k) {label : String}
    (hlabel : selectorChars scope + marks label.toList < k) :
    meets.Holds (Expr.resolveIdentifier (view.inner next) scope label)
      (Expr.resolveIdentifier (view.inner next') scope label) := by
  unfold Expr.resolveIdentifier
  split
  · rename_i rest hrest
    have hindex : (view.inner next').indexEntry = (view.inner next).indexEntry := rfl
    rw [hindex]
    cases hpointer : ((view.inner next).indexEntry scope).bind Value.asPointer? with
    | none => exact meets.result _
    | some target =>
      obtain ⟨v, hentry, htarget⟩ := Option.bind_eq_some_iff.mp hpointer
      have hunmarked := (hview.index _ (Dict.get?_eq_some_iff_mem.mp hentry)).2 target htarget
      have hless : selectorChars ((Path.parse target).join (Path.parse rest)) < k := by
        obtain ⟨behind, hbehind, rfl⟩ := Option.map_eq_some_iff.mp hrest
        have hsplit := congrArg marks (behind?_eq_some hbehind)
        have htarget := selectorChars_parse_le target
        have hparse := selectorChars_parse_le (String.ofList behind)
        rw [String.toList_ofList] at hparse
        rw [marks_append] at hsplit
        rw [hunmarked.marks] at htarget
        rw [selectorChars_join]
        omega
      exact meets.next (h _ hless) fun found => meets.result _
  · have hparse := selectorChars_parse_le label
    exact meets.readFirst (h _ (by rw [selectorChars_join]; omega)) (h _ (by omega))

/-- **Evaluations meet** where the reads of their labels do. -/
theorem evaluate_meet (hview : view.Unmarked) (h : MeetBelow next next' k) {text : String}
    (hlabels : ∀ l ∈ Expr.references text, selectorChars scope + marks l.toList < k) :
    meets.Holds (Expr.evaluate (view.inner next) scope text) (Expr.evaluate (view.inner next') scope text) :=
  meets.evaluate fun _ hsteps l hl => resolveIdentifier_meet hview h (hlabels l (Expr.mem_compile? hsteps hl))

theorem readSide_meet (h : MeetBelow next next' k) {raw : String}
    (hraw : selectorChars scope + marks raw.toList < k) :
    meets.Holds (readSide (view.inner next) scope raw) (readSide (view.inner next') scope raw) := by
  have hcanonical := selectorChars_canonical_le raw
  exact meets.readFirst (h _ (by rw [selectorChars_join]; omega)) (h _ (by omega))

/-- **Filters meet** where the reads of their sides do. -/
theorem matchesAt_meet (h : MeetBelow next next' k) {f : Filter}
    (hclauses : ∀ clause ∈ f.clauses, selectorChars scope + marks clause.left.toList < k ∧
      selectorChars scope + marks clause.right.toList < k) :
    meets.Holds (f.matchesAt (view.inner next) scope) (f.matchesAt (view.inner next') scope) :=
  meets.matchesAt fun clause hclause =>
    ⟨readSide_meet h (hclauses clause hclause).1, readSide_meet h (hclauses clause hclause).2⟩

/-! ## Selectors -/

/-- A child of a collection is part of a key. -/
theorem marks_child (hview : view.Unmarked) {collection : Path} {child : String}
    (h : child ∈ view.index.childrenOf collection) : marks child.toList = 0 := by
  unfold Index.childrenOf Entries.keys at h
  obtain ⟨named, hnamed, rfl⟩ := List.mem_map.mp h
  obtain ⟨name, hname, rfl⟩ := List.mem_map.mp (Entries.mem_ofList hnamed)
  obtain ⟨e, he, hsegment⟩ := List.mem_filterMap.mp hname
  rw [Index.descendants_eq_filter] at he
  have hkey := (hview.index e (List.mem_filter.mp he).1).1
  obtain ⟨piece, hpiece, rfl⟩ := List.mem_map.mp (List.mem_of_getElem? hsegment)
  refine marks_eq_zero fun c hc => hkey c ?_
  rw [String.toList_ofList] at hc
  exact mem_of_mem_splitAll (List.mem_filter.mp hpiece).1 hc

theorem readTransform_meet (hview : view.Unmarked) {p : Path} (h : MeetBelow next next' (selectorChars p)) :
    meets.Holds (readTransform (view.inner next) view.index p) (readTransform (view.inner next') view.index p) := by
  refine meets.readTransform fun position base transform hfirst child hchild => ?_
  refine evaluate_meet hview h fun l hl => ?_
  have hless := transform_marks hfirst (Expr.reference_sublist hl)
  rw [selectorChars_child, marks_child hview hchild]
  exact hless

theorem readSelection_meet {p : Path} (h : MeetBelow next next' (selectorChars p)) :
    meets.Holds (readSelection (view.inner next) view.index p) (readSelection (view.inner next') view.index p) :=
  meets.readSelection fun _ _ _ hfirst _ hkey => h _ (selection_marks hfirst hkey)

theorem readFilter_meet (hview : view.Unmarked) {p : Path} (h : MeetBelow next next' (selectorChars p)) :
    meets.Holds (readFilter (view.inner next) view.index p) (readFilter (view.inner next') view.index p) := by
  refine meets.readFilter fun position filter hfirst child hchild => ?_
  obtain ⟨hsides, hbelow⟩ := filter_marks hfirst
  have hscope : selectorChars ((p.take position).child child) = selectorChars (p.take position) := by
    rw [selectorChars_child, marks_child hview hchild, Nat.add_zero]
  rw [← hscope] at hsides
  exact ⟨matchesAt_meet h hsides, h _ (by rw [selectorChars_join, hscope]; exact hbelow)⟩

/-! ## Pointers -/

/-- A step of a walk brings in no selectors. -/
theorem selectorChars_redirect?_le (hview : view.Unmarked) {p q : Path} (h : view.index.redirect? p = some q) :
    selectorChars q ≤ selectorChars p := by
  have htarget {p target : Path} (h : view.index.pointerAt? p = some target) : selectorChars target = 0 := by
    obtain ⟨raw, hraw, rfl⟩ := Option.map_eq_some_iff.mp h
    obtain ⟨v, hentry, hpointer⟩ := Option.bind_eq_some_iff.mp hraw
    have hunmarked := (hview.index _ (Dict.get?_eq_some_iff_mem.mp hentry)).2 raw hpointer
    have := selectorChars_canonical_le raw
    rw [hunmarked.marks] at this
    omega
  unfold Index.redirect? at h
  split at h
  · rename_i target hself
    obtain rfl := Option.some.inj h
    rw [htarget hself]
    exact Nat.zero_le _
  · obtain ⟨n, -, hfound⟩ := List.exists_of_findSome?_eq_some h
    obtain ⟨target, habove, rfl⟩ := Option.map_eq_some_iff.mp hfound
    have := selectorChars_drop_le p n
    rw [selectorChars_join, htarget habove]
    omega

/-- A walk brings in no selectors, and takes from its budget unless it stays where it is. -/
theorem walk_spec (hview : view.Unmarked) (budget : Nat) (p : Path) :
    selectorChars (view.index.walk budget p).path ≤ selectorChars p ∧ (view.index.walk budget p).left ≤ budget ∧
      ((view.index.walk budget p).path = p ∨ (view.index.walk budget p).exhausted ∨
        (view.index.walk budget p).left < budget) := by
  induction budget generalizing p with
  | zero =>
    unfold Index.walk
    split
    · exact ⟨Nat.le_refl _, Nat.le_refl _, .inl rfl⟩
    · exact ⟨Nat.le_refl _, Nat.le_refl _, .inl rfl⟩
  | succ budget ih =>
    unfold Index.walk
    split
    · exact ⟨Nat.le_refl _, Nat.le_refl _, .inl rfl⟩
    · rename_i q hq
      obtain ⟨hpath, hleft, -⟩ := ih q
      have hstep := selectorChars_redirect?_le hview hq
      exact ⟨by omega, by omega, .inr (.inr (by omega))⟩

/-- The runs of further reads meet for paths with no more characters of selectors and less of the budget. -/
def MeetBehind (next next' : Next Option) (k budget : Nat) : Prop :=
  ∀ q b, selectorChars q ≤ k → b < budget → meets.Holds (next q b) (next' q b)

theorem readHidden_meet (hview : view.Unmarked) {p : Path} {budget : Nat} (h : MeetBehind next next' k budget) :
    meets.Holds (view.readHidden next scope p budget) (view.readHidden next' scope p budget) := by
  unfold readHidden
  split
  · rename_i target hentry
    cases budget with
    | zero => exact meets.result _
    | succ budget =>
      refine h _ _ ?_ (Nat.lt_succ_self budget)
      unfold branchEntry? at hentry
      split at hentry
      · cases hentry
      · obtain ⟨v, hopen, hlookup⟩ := Option.bind_eq_some_iff.mp hentry
        have := selectorChars_canonical_le target
        have := (hview.branches scope v hopen _ target hlookup).marks
        omega
  · exact meets.result _

theorem readIndexed_meet (hview : view.Unmarked) {p : Path} {budget : Nat}
    (h : MeetBehind next next' (selectorChars p) budget) :
    meets.Holds (view.readIndexed next p budget) (view.readIndexed next' p budget) := by
  unfold readIndexed
  split
  · exact meets.result _
  · obtain ⟨hpath, -, hends⟩ := walk_spec hview budget p
    dsimp only
    split
    · exact meets.result _
    · rename_i hleft
      split
      · exact meets.result _
      · split
        · exact meets.result _
        · rename_i hmoved
          exact h _ _ hpath ((hends.resolve_left hmoved).resolve_left hleft)

theorem readPlain_meet (hview : view.Unmarked) {p : Path} {budget : Nat}
    (h : MeetBehind next next' (selectorChars p) budget) :
    meets.Holds (view.readPlain next p budget) (view.readPlain next' p budget) := by
  unfold readPlain
  split
  · exact readHidden_meet hview h
  · exact readIndexed_meet hview h

/-! ## Rows of reads -/

/-- **One read meets itself** where the reads meet that it starts: those for its selectors, and those behind
pointers. -/
theorem readStep_meet (hview : view.Unmarked) {p : Path} {budget : Nat}
    (hselectors : MeetBelow next next' (selectorChars p))
    (hpointers : MeetBehind next next' (selectorChars p) budget) :
    meets.Holds (view.readStep next p budget) (view.readStep next' p budget) := by
  have hnormal := selectorChars_normalize_le p
  have hfilters : MeetBelow next next' (selectorChars p.normalize) := fun q hq =>
    hselectors q (Nat.lt_of_lt_of_le hq hnormal)
  have hbehind : MeetBehind next next' (selectorChars p.normalize) budget := fun q b hq hb =>
    hpointers q b (Nat.le_trans hq hnormal) hb
  unfold readStep
  refine meets.next (readTransform_meet hview hselectors) fun transformed => ?_
  cases transformed with
  | some v => exact meets.result _
  | none =>
    refine meets.next (readSelection_meet hselectors) fun selected => ?_
    cases selected with
    | some v => exact meets.result _
    | none =>
      refine meets.next (readFilter_meet hview hfilters) fun filtered => ?_
      cases filtered with
      | some v => exact meets.result _
      | none => exact readPlain_meet hview hbehind

/-- **Every row of reads ends**, with one result for every depth that is enough. -/
theorem readWith_meet (hview : view.Unmarked) {fuel more : Nat} (hmore : fuel ≤ more) {p : Path} {budget : Nat}
    (hfuel : (maxHops + 1) * selectorChars p + budget < fuel) :
    meets.Holds (view.readWith fuel p budget) (view.readWith more p budget) := by
  induction fuel generalizing more p budget with
  | zero => exact absurd hfuel (Nat.not_lt_zero _)
  | succ fuel ih =>
    obtain ⟨more, rfl⟩ : ∃ m, more = m + 1 := ⟨more - 1, by omega⟩
    have hmore : fuel ≤ more := Nat.le_of_succ_le_succ hmore
    refine readStep_meet hview (fun q hq => ih hmore ?_) (fun q b hq hb => ih hmore ?_)
    · -- A full budget is worth less than one character.
      have := Nat.mul_le_mul_left (maxHops + 1) hq
      rw [Nat.mul_succ] at this
      omega
    · have := Nat.mul_le_mul_left (maxHops + 1) hq
      omega

/-- **Every read ends**, and gives the same to every depth from some on. -/
theorem reading_terminates (hview : view.Unmarked) (p : Path) (budget : Nat) :
    ∃ found, view.reading p budget = some found ∧ ∀ fuel, (maxHops + 1) * selectorChars p + budget < fuel →
      view.readWith fuel p budget = some found := by
  obtain ⟨found, hfound, -⟩ := readWith_meet hview (Nat.le_refl _) (Nat.lt_succ_self _)
  refine ⟨found, view.reading_of_readWith hfound, fun fuel hfuel => ?_⟩
  obtain ⟨same, hsame, hmore⟩ := readWith_meet hview hfuel (Nat.lt_succ_self _)
  rw [hmore, ← hsame, hfound]

theorem exists_read (hview : view.Unmarked) (p : Path) : ∃ found, view.read p = some found := by
  obtain ⟨found, hfound, -⟩ := reading_terminates hview p maxHops
  exact ⟨found, hfound⟩

end View

namespace Store

/-- **Every read ends.** In a store in which neither the keys of the index nor the targets of pointers hold a
character of selectors, the read of any text comes to its result after finitely many steps: to every depth that has room
for each character of a selector in it, reads give the same. -/
theorem read_terminates {s : Store} (h : s.view.Unmarked) (raw : String) :
    ∃ found, s.read raw = some found ∧
      ∀ fuel, (maxHops + 1) * (View.selectorChars (Path.parse raw) + 1) ≤ fuel →
        s.view.readWith fuel (Path.parse raw) maxHops = some found := by
  obtain ⟨found, hread, hdepth⟩ := View.reading_terminates h (Path.parse raw) maxHops
  refine ⟨found, hread, fun fuel hfuel => hdepth fuel ?_⟩
  rw [Nat.mul_succ] at hfuel
  omega

/-- **Every evaluation ends** in such a store. -/
theorem isSome_valueOf {s : Store} (h : s.view.Unmarked) (expression : String) (scope : Path) :
    (s.valueOf expression scope).isSome := by
  have hread (q : Path) : Simulation.meets.Holds (s.resolver.readPath q) (s.resolver.readPath q) := by
    obtain ⟨found, hfound⟩ := View.exists_read h q
    exact ⟨found, hfound, hfound⟩
  have hevaluate : Simulation.meets.Holds (Expr.evaluate s.resolver scope expression)
      (Expr.evaluate s.resolver scope expression) :=
    Simulation.meets.evaluate fun _ _ label _ => Simulation.meets.resolveIdentifier rfl hread label
  obtain ⟨v, hv, -⟩ := hevaluate
  rw [valueOf, hv]
  rfl

/-- A formula derived at a word in such a store is registered, its value is committed, and what the word sets off is
computed anew. -/
theorem deriveAt_of_unmarked {s : Store} (h : s.view.Unmarked) {name expression : String} (hname : Text.isWord name)
    (htrimmed : Text.trimmed expression = expression) (hne : expression.isEmpty = false) {refs : List Reference}
    (hrefs : Derivation.firstPerKey ((Derivation.boundLabels expression).map fun label =>
      ⟨label, (Path.canonical label).key⟩) = refs) :
    ∃ v, v.IsData ∧ (s.deriveAt name expression).store =
      (((s.registered .root name expression refs).commitValue ⟨[name]⟩ v (some .derive)).1.recomputeEach
        ((s.registered .root name expression refs).downstream [name])).1 := by
  have hbound : Derivation.bindReferences s.resolver expression .root = some refs := by
    have hread (label : String) : (s.resolver.readPath (Path.canonical label)).isSome :=
      Option.isSome_iff_exists.mpr (View.exists_read h (Path.canonical label))
    rw [Derivation.bindReferences_root fun label _ => hread label, hrefs]
  obtain ⟨v, hv⟩ := Option.isSome_iff_exists.mp (isSome_valueOf h expression .root)
  have hvalue : (s.registered .root name expression refs).valueOf expression .root = some v := hv
  exact ⟨v, valueOf_isData hv, deriveAt_eq_pass s hname htrimmed hne hbound hvalue⟩

/-- Nothing is declared, derived or sealed. -/
structure Untouched (s : Store) (n : Nat) : Prop where
  settled : Settled s
  current : IndexCurrent s
  scopes : s.scopes = .empty
  branches : s.branches = .empty
  ticks : Ticks s n

/-- Where nothing is declared, derived or sealed, a value that is stored as it is sets its key and no more. -/
theorem Untouched.commitValue {s : Store} {p : Path} {v : Value} {operator : Option Operator.Kind} {n : Nat}
    (h : Untouched s (n + 1)) (hp : p.Plain) (hstored : s.storedForm p v operator = v)
    (hsets : Index.setsKey (s.recordOf ⟨p, operator, v, s.storedForm p v operator⟩)) :
    Untouched (s.commitValue p v operator).1 n ∧ (s.commitValue p v operator).1.index = s.index.insert p.key v := by
  have hclear : s.scopes.hidingScope? p = none := by rw [h.scopes, Scopes.hidingScope?_empty]
  refine ⟨⟨h.settled.of_derivations (commitValue_derivations s p _ _), ?_, ?_, ?_, h.ticks.commitValue p _ _⟩, ?_⟩
  · exact indexCurrent_stable.value p v operator h.current
  · rw [commitValue_scopes, h.scopes]
  · rw [commitValue_clear hclear, commit_branches, h.branches]
  · rw [commitValue_index_of_setsKey h.current h.ticks.fresh hp.clean hclear _ hsets, hstored]

theorem Untouched.point {s : Store} {p : Path} {raw target : String} {n : Nat} (h : Untouched s (n + 1))
    (hp : p.Plain)
    (hpoints : ∀ path, Operator.classifyKind .pointer (Path.parse raw) path (.text target) = .ok (.point p target)) :
    Untouched (s.after (.definePointer raw target)) n ∧
      (s.after (.definePointer raw target)).index = s.index.insert p.key (.pointer target) := by
  have hcommit : s.after (.definePointer raw target) = (s.commitValue p (.pointer target) (some .pointer)).1 := by
    show (s.definePointer raw target).store = _
    rw [definePointer, Outcome.store_done, callKind_store hpoints]
    exact congrArg Prod.fst (put_of_settled h.settled p _ _)
  rw [hcommit]
  exact h.commitValue hp (storedForm_of_isMarker rfl s p _) rfl

/-- A store with two pointers that lead to each other. -/
def circular : Store :=
  ((empty (.ticking 1000 1)).after (.definePointer "a" "b")).after (.definePointer "b" "a")

theorem circular_parts :
    circular.index = (Dict.empty.insert "a" (.pointer "b")).insert "b" (.pointer "a") ∧
      circular.branches = .empty := by
  have hstart : Untouched (empty (.ticking 1000 1)) 2 :=
    ⟨fun _ => rfl, indexCurrent_empty _, rfl, rfl, ticks_empty (increasing_ticking (by decide))⟩
  have ha (path : Path) :
      Operator.classifyKind .pointer (Path.parse "a") path (.text "b") = .ok (.point ⟨["a"]⟩ "b") := rfl
  have hb (path : Path) :
      Operator.classifyKind .pointer (Path.parse "b") path (.text "a") = .ok (.point ⟨["b"]⟩ "a") := rfl
  obtain ⟨hfirst, hindex⟩ := hstart.point (by decide) ha
  obtain ⟨hsecond, hindex'⟩ := hfirst.point (by decide) hb
  refine ⟨?_, hsecond.branches⟩
  rw [circular, hindex', hindex]
  rfl

/-- With the pointers in a circle, a filter within a projection still ends. -/
theorem read_terminates_circular :
    Reached (fun _ => True) circular ∧ circular.view.Unmarked ∧ circular.index.pointerAt? ⟨["a"]⟩ = some ⟨["b"]⟩ ∧
      circular.index.pointerAt? ⟨["b"]⟩ = some ⟨["a"]⟩ ∧
      ∃ found, circular.read "a.x[y => y.z + a[w > 1][b.q]].r" = some found ∧
        ∀ fuel, (maxHops + 1) * (View.selectorChars (Path.parse "a.x[y => y.z + a[w > 1][b.q]].r") + 1) ≤ fuel →
          circular.view.readWith fuel (Path.parse "a.x[y => y.z + a[w > 1][b.q]].r") maxHops = some found := by
  obtain ⟨hindex, hbranches⟩ := circular_parts
  have hreached : Reached (fun _ => True) circular :=
    ((Reached.start _).call (.definePointer "a" "b") trivial).call (.definePointer "b" "a") trivial
  have hunmarked : circular.view.Unmarked := by
    have hentries : circular.view.index.entries = [("a", .pointer "b"), ("b", .pointer "a")] := by
      show circular.index.entries = _
      rw [hindex]
      rfl
    refine View.unmarked_of_entries hbranches hentries fun e he => ?_
    have ha : PathLedger.Unmarked "a" := by decide
    have hb : PathLedger.Unmarked "b" := by decide
    rcases List.mem_pair.mp he with rfl | rfl
    · exact ⟨ha, fun target htarget => Option.some.inj htarget ▸ hb⟩
    · exact ⟨hb, fun target htarget => Option.some.inj htarget ▸ ha⟩
  refine ⟨hreached, hunmarked, ?_, ?_, read_terminates hunmarked _⟩
  · rw [hindex]
    decide +kernel
  · rw [hindex]
    decide +kernel

end Store

end PathLedger
