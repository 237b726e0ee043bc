import PathLedger.Proofs.Expr.Scanned
import PathLedger.Proofs.Store.Downstream
import PathLedger.Proofs.Store.Termination
import PathLedger.Proofs.Text.Ends

/-!
# What a formula is bound to is what it reads

The labels of a formula are looked up twice: when it is registered, to bind it to a key, and whenever it is evaluated.
Both prefer the path below the scope to the one from the root. But the one takes a null for a value and the other does
not, and the one reads the label as a canonical path and the other as it is written.

* `Path.canonical_isRoot_of_start` — a text that starts with a letter spells no root.
* `Selector.Unpicked` — raw paths without projections, choices and ranges; `View.read_congr_of_unpicked` — of these,
  only the normal form counts.
* `View.ReadsAlike` — a label that reads alike as it is written and as a canonical path.
* `Store.bindPath_reads` — **a label is bound to a path that reads as what the label stands for**.
* `Store.references_read` — **some reference of a formula reads as what a label of it stands for**, and the formula
  subscribes to it.
* `Store.references_miss` — a null below the scope takes the place of the value that is read.
-/

namespace PathLedger

open Text

/-! ## Labels spell no root -/

theorem Path.expand_ne_nil {c : Char} (h : isWordStart c) (r : List Char) : expand (c :: r) ≠ [] := by
  have hblank := isBlank_of_isWordChar (isWordChar_of_isWordStart h)
  obtain ⟨t, ht⟩ := trim_cons hblank r
  have hbase : c ≠ '[' := by
    rintro rfl
    exact absurd h (by decide)
  unfold expand
  dsimp only
  rw [ht]
  split
  · exact List.cons_ne_nil _ _
  · obtain ⟨u, hu⟩ := trim_cons hblank (t.takeWhile (· != '['))
    rw [List.takeWhile_cons_of_pos (by simpa using hbase), hu]
    exact List.cons_ne_nil _ _

/-- **A text that starts with a letter or an underscore spells no root.** -/
theorem Path.canonical_isRoot_of_start {raw : String} {c : Char} {r : List Char} (hraw : raw.toList = c :: r)
    (h : isWordStart c) : (canonical raw).isRoot = false := by
  have hcut : cut 0 none (c :: r) = consHead c (cut 0 none r) := by
    have hopen : c ≠ '[' := by rintro rfl; exact absurd h (by decide)
    have hclose : c ≠ ']' := by rintro rfl; exact absurd h (by decide)
    have hdot : c ≠ '.' := by rintro rfl; exact absurd h (by decide)
    simp [cut, hopen, hclose, hdot]
  obtain ⟨piece, more, hpieces⟩ : ∃ piece more, consHead c (cut 0 none r) = (c :: piece) :: more := by
    cases cut 0 none r with
    | nil => exact ⟨[], [], rfl⟩
    | cons piece more => exact ⟨piece, more, rfl⟩
  obtain ⟨t, ht⟩ := trim_cons (isBlank_of_isWordChar (isWordChar_of_isWordStart h)) piece
  have hparse : ∃ more, (parse raw).segments = String.ofList (c :: t) :: more := by
    rw [parse, hraw, hcut, hpieces, List.map_cons, ht, nonEmpty, List.filter_cons_of_pos rfl]
    exact ⟨_, rfl⟩
  obtain ⟨more, hmore⟩ := hparse
  rw [canonical, normalize, isRoot, hmore]
  simp [expand_ne_nil h t]

/-! ## Reading alike -/

/-- No segment of a raw path carries a projection, a choice or a range. -/
def Selector.Unpicked (p : Path) : Prop :=
  ∀ segment ∈ p.segments,
    Selector.selectorOf? Transform.parse? segment = none ∧ Selector.selectorOf? Selector.keys? segment = none

instance (p : Path) : Decidable (Selector.Unpicked p) :=
  inferInstanceAs (Decidable (∀ segment ∈ p.segments, _))

theorem Selector.Unpicked.join {p q : Path} (hp : Unpicked p) (hq : Unpicked q) : Unpicked (p.join q) := by
  intro segment hsegment
  exact (List.mem_append.mp hsegment).elim (hp segment) (hq segment)

/-- Keys in brackets are no choice, however many there are. -/
example : Selector.Unpicked (Path.parse "grid[1][2].name") := by decide

theorem Path.normalize_join (p q : Path) : (p.join q).normalize = p.normalize.join q.normalize := by
  simp [normalize, join]

namespace View

variable {view : View} {p q scope : Path} {label : String}

/-- **Of a path without projections, choices and ranges only the normal form counts** in one read. -/
theorem readStep_congr_of_unpicked (hp : Selector.Unpicked p) (hq : Selector.Unpicked q)
    (hnormal : p.normalize = q.normalize) (next : Next Option) (budget : Nat) :
    view.readStep next p budget = view.readStep next q budget := by
  have hpicked {p : Path} (h : Selector.Unpicked p) :
      Selector.firstSegment? (Selector.selectorOf? Selector.Transform.parse?) p.segments = none ∧
        Selector.firstSegment? (Selector.selectorOf? Selector.keys?) p.segments = none :=
    ⟨Selector.firstSegment?_eq_none fun s hs => (h s hs).1, Selector.firstSegment?_eq_none fun s hs => (h s hs).2⟩
  rw [readStep, readStep, Selector.readTransform, (hpicked hp).1, Selector.readSelection, (hpicked hp).2,
    Selector.readTransform, (hpicked hq).1, Selector.readSelection, (hpicked hq).2, hnormal]

/-- **Of a path without projections, choices and ranges only the normal form counts.** -/
theorem read_congr_of_unpicked (hp : Selector.Unpicked p) (hq : Selector.Unpicked q)
    (hnormal : p.normalize = q.normalize) : view.read p = view.read q := by
  rw [read, read, reading, reading]
  exact readStep_congr_of_unpicked hp hq hnormal _ _

/-- A label reads alike as it is written and as a canonical path, below a scope and from the root. -/
structure ReadsAlike (view : View) (scope : Path) (label : String) : Prop where
  relative : view.read (scope.join (Path.parse label)) = view.read (scope.join (Path.canonical label))
  absolute : view.read (Path.parse label) = view.read (Path.canonical label)

/-- A label without brackets reads alike. -/
theorem readsAlike_of_canonical (h : Path.parse label = Path.canonical label) : view.ReadsAlike scope label := by
  constructor <;> rw [h]

/-- **A label with keys in brackets reads alike.** -/
theorem readsAlike_of_unpicked (hscope : Selector.Unpicked scope) (hraw : Selector.Unpicked (Path.parse label))
    (hcanonical : Selector.Unpicked (Path.canonical label))
    (hnormal : (Path.canonical label).normalize = Path.canonical label) : view.ReadsAlike scope label where
  relative := by
    refine read_congr_of_unpicked (hscope.join hraw) (hscope.join hcanonical) ?_
    rw [Path.normalize_join, Path.normalize_join, hnormal, Path.canonical]
  absolute := read_congr_of_unpicked hraw hcanonical hnormal.symm

end View

namespace Derivation

/-- Of references to one key one is kept. -/
theorem exists_mem_firstPerKey {refs : List Reference} {r : Reference} (h : r ∈ refs) :
    ∃ kept ∈ firstPerKey refs, kept.path = r.path := by
  have hkept (kept rest : List Reference) (h : r ∈ rest ∨ ∃ k ∈ kept, k.path = r.path) :
      ∃ k ∈ rest.foldl (fun kept r => if kept.any (·.path == r.path) then kept else kept ++ [r]) kept,
        k.path = r.path := by
    induction rest generalizing kept with
    | nil => exact h.resolve_left List.not_mem_nil
    | cons a rest ih =>
      refine ih _ ?_
      dsimp only
      rcases h with h | ⟨k, hk, hpath⟩
      · rcases List.mem_cons.mp h with rfl | h
        · right
          split
          · rename_i hany
            simpa using hany
          · exact ⟨r, List.mem_append_right _ (List.mem_singleton_self r), rfl⟩
        · exact .inl h
      · right
        split
        · exact ⟨k, hk, hpath⟩
        · exact ⟨k, List.mem_append_left _ hk, hpath⟩
  exact hkept [] refs (.inl h)

/-- A target subscribes to whatever its formula refers to, when it is registered. -/
theorem Graph.mem_subscribersOf_register (g : Graph) (p : Path) {d : Derivation} {key : String} (h : key ∈ d.refKeys) :
    p.key ∈ (g.register p d).subscribersOf key := by
  rw [register, subscribersOf]
  dsimp only
  exact mem_foldl_subscribe.mpr (.inr ⟨h, rfl⟩)

end Derivation

namespace Store

variable {s : Store} {scope : Path} {expression label : String} {v : Value}

/-! ## Binding and evaluating -/

theorem present_eq_some {found : Option Value} (h : Value.present found = some v) : found = some v :=
  (Option.filter_eq_some_iff.mp h).1

/-- What is not present is missing or null. -/
theorem present_eq_none {found : Option Value} (h : Value.present found = none) :
    found = none ∨ found = some .null := by
  cases found with
  | none => exact .inl rfl
  | some w =>
    cases w with
    | null => exact .inr rfl
    | _ => cases h

/-- **A label is bound to a path that reads as what the label stands for**, unless the path below the scope reads as
null. -/
theorem bindPath_reads (hpointer : Expr.pointerLabel? label = none)
    (hvalue : Expr.resolveIdentifier s.resolver scope label = some (some v)) (halike : s.view.ReadsAlike scope label)
    (hnull : s.view.read (scope.join (Path.canonical label)) ≠ some (some .null)) :
    ∃ p, Derivation.bindPath s.resolver scope label = some p ∧ s.view.read p = some (some v) := by
  have hread (p : Path) : s.resolver.readPath p = s.view.read p := rfl
  unfold Expr.resolveIdentifier Resolver.readFirst at hvalue
  rw [hpointer] at hvalue
  simp only [hread, halike.relative, halike.absolute] at hvalue
  obtain ⟨near, hnear, hvalue⟩ := Option.bind_eq_some_iff.mp hvalue
  cases hpresent : Value.present near with
  | some w =>
    -- The path below the scope reads as a value, and both choose it.
    rw [hpresent] at hvalue
    obtain rfl := Option.some.inj (Option.some.inj hvalue)
    rw [present_eq_some hpresent] at hnear
    exact ⟨_, Derivation.bindPath_relative hnear, hnear⟩
  | none =>
    -- Nothing is read there, and both go on to the path from the root.
    rw [hpresent] at hvalue
    obtain ⟨far, hfar, hvalue⟩ := Option.bind_eq_some_iff.mp hvalue
    have hfound := present_eq_some (Option.some.inj hvalue)
    obtain rfl := (present_eq_none hpresent).resolve_right fun h => hnull (by rw [hnear, h])
    rw [hfound] at hfar
    exact ⟨_, Derivation.bindPath_absolute hnear hfar, hfar⟩

/-- A label of a formula that names no pointer is bound. -/
theorem mem_boundLabels (hlabel : label ∈ Expr.references expression) (hpointer : Expr.pointerLabel? label = none) :
    label ∈ Derivation.boundLabels expression := by
  obtain ⟨c, r, hstart, hc⟩ := Expr.reference_start hlabel
  rw [Derivation.boundLabels, List.mem_filter]
  exact ⟨hlabel, by rw [hpointer, Path.canonical_isRoot_of_start hstart hc]; rfl⟩

/-- Whatever label of a formula is bound is bound to one of its references. -/
theorem exists_reference {refs : List Reference}
    (hrefs : Derivation.bindReferences s.resolver expression scope = some refs)
    (hlabel : label ∈ Derivation.boundLabels expression) {p : Path}
    (hp : Derivation.bindPath s.resolver scope label = some p) : ∃ r ∈ refs, r.path = p.key := by
  obtain ⟨-, rfl⟩ := Derivation.bindReferences_eq_some_iff.mp hrefs
  refine Derivation.exists_mem_firstPerKey (r := ⟨label, p.key⟩) (List.mem_filterMap.mpr ⟨label, hlabel, ?_⟩)
  rw [hp]
  rfl

/-- Where neither keys nor pointers hold a selector, every formula is bound. -/
theorem isSome_bindReferences (hview : s.view.Unmarked) (expression : String) (scope : Path) :
    (Derivation.bindReferences s.resolver expression scope).isSome := by
  have hbound (label : String) : (Derivation.bindPath s.resolver scope label).isSome := by
    obtain ⟨near, hnear⟩ := View.exists_read hview (scope.join (Path.canonical label))
    obtain ⟨far, hfar⟩ := View.exists_read hview (Path.canonical label)
    cases near with
    | some v => rw [Derivation.bindPath_relative hnear]; rfl
    | none => rw [Derivation.bindPath_absolute hnear hfar]; rfl
  rw [Derivation.bindReferences_eq_some_iff.mpr ⟨fun label _ => hbound label, rfl⟩]
  rfl

/-! ## Subscribing -/

/-- A formula that is bound leaves the subscriptions of its registration when it is derived. -/
theorem subscribersOf_deriveOne {refs : List Reference}
    (hrefs : Derivation.bindReferences s.resolver expression scope = some refs) (name : String) :
    (s.deriveOne scope name expression).1.derivations.subscribersOf =
      (s.registered scope name expression refs).derivations.subscribersOf := by
  obtain ⟨hnone, -⟩ | ⟨same, hsame, h⟩ := s.deriveOne_cases scope name expression
  · cases hnone.symm.trans hrefs
  · obtain rfl := Option.some.inj (hsame.symm.trans hrefs)
    obtain h | ⟨v, -, h⟩ := h
    · rw [h]
    · rw [h, put_eq_pass, recorded, subscribersOf_recomputeEach, commitValue_derivations]

/-- **A formula subscribes to every reference of it.** -/
theorem mem_subscribersOf_deriveOne {refs : List Reference}
    (hrefs : Derivation.bindReferences s.resolver expression scope = some refs) (name : String) {r : Reference}
    (hr : r ∈ refs) :
    (scope.join (Path.canonical name)).key ∈
      (s.deriveOne scope name expression).1.derivations.subscribersOf r.path := by
  rw [subscribersOf_deriveOne hrefs, registered]
  exact Derivation.Graph.mem_subscribersOf_register _ _ (List.mem_map_of_mem hr)

/-- **Some reference of a formula reads as what a label of it stands for**, and the formula subscribes to it when it is
derived. The label reads alike as it is written and as a canonical path, and the path below the scope does not read as
null. That every label of the formula is bound, and so that there are references at all, takes reads that end; they do
where neither keys nor pointers hold a selector. -/
theorem references_read (hlabel : label ∈ Expr.references expression) (hpointer : Expr.pointerLabel? label = none)
    (hvalue : Expr.resolveIdentifier s.resolver scope label = some (some v)) (halike : s.view.ReadsAlike scope label)
    (hnull : s.view.read (scope.join (Path.canonical label)) ≠ some (some .null)) :
    ∃ q, s.view.read q = some (some v) ∧
      (scope.Clean → (Path.canonical label).Clean → Path.ofKey q.key = q) ∧
      (∀ refs, Derivation.bindReferences s.resolver expression scope = some refs →
        (∃ r ∈ refs, r.path = q.key) ∧
          ∀ name, (scope.join (Path.canonical name)).key ∈
            (s.deriveOne scope name expression).1.derivations.subscribersOf q.key) ∧
      (s.view.Unmarked → (Derivation.bindReferences s.resolver expression scope).isSome) := by
  obtain ⟨q, hq, hread⟩ := bindPath_reads hpointer hvalue halike hnull
  refine ⟨q, hread, fun hscope hcanonical => ?_, fun refs hrefs => ?_, fun hview => isSome_bindReferences hview _ _⟩
  · have hjoin : (scope.join (Path.canonical label)).Clean := fun segment hsegment =>
      (List.mem_append.mp hsegment).elim (hscope segment) (hcanonical segment)
    obtain rfl | rfl := Derivation.bindPath_cases hq
    · exact Path.ofKey_key hjoin
    · exact Path.ofKey_key hcanonical
  · obtain ⟨r, hr, hpath⟩ := exists_reference hrefs (mem_boundLabels hlabel hpointer) hq
    exact ⟨⟨r, hr, hpath⟩, fun name => hpath ▸ mem_subscribersOf_deriveOne hrefs name hr⟩

/-! ## A null in the way -/

/-- A null below a scope, and a value from the root at the same names. -/
def eclipsed : Store :=
  ((empty (.ticking 1000 1)).after (.write "s.a.b" (.ofJson .null) none)).after
    (.write "a.b" (.ofJson (.bool true)) none)

theorem eclipsed_reached : Reached (fun c => c.isLocal = true) eclipsed := by
  have hstart : Reached (fun c => c.isLocal = true) (empty (.ticking 1000 1)) := .start _
  exact (hstart.call (.write "s.a.b" _ none) rfl).call (.write "a.b" _ none) rfl

theorem Untouched.write {p : Path} {n : Nat} (h : Untouched s (n + 1)) (hp : p.Plain) (hroot : p.isRoot = false)
    (hleaf : ∀ leaf, p.last? = some leaf → s.operators.kindOf? leaf = none) (v : Value) :
    Untouched (s.after (.write p.key v none)) n ∧
      (s.after (.write p.key v none)).index = s.index.insert p.key v ∧
      (s.after (.write p.key v none)).operators = s.operators := by
  have hcommit : s.after (.write p.key v none) = (s.commitValue p v none).1 :=
    (write_plain h.settled hp hroot hleaf v).1
  have hstored : s.storedForm p v none = v := by
    refine storedForm_of_effectiveSecret_eq_empty ?_ v none
    rw [h.scopes]
    exact Scopes.effectiveSecret_empty p
  obtain ⟨huntouched, hindex⟩ := h.commitValue hp hstored rfl
  rw [hcommit]
  exact ⟨huntouched, hindex, commitValue_operators s p v none⟩

theorem eclipsed_parts :
    eclipsed.scopes = .empty ∧
      eclipsed.index = (Dict.empty.insert "s.a.b" (.ofJson .null)).insert "a.b" (.ofJson (.bool true)) := by
  have hstart : Untouched (empty (.ticking 1000 1)) 2 :=
    ⟨fun _ => rfl, indexCurrent_empty _, rfl, rfl, ticks_empty (increasing_ticking (by decide))⟩
  obtain ⟨hfirst, hindex, hoperators⟩ :=
    hstart.write (p := ⟨["s", "a", "b"]⟩) (by decide) (by decide) (by decide) (.ofJson .null)
  obtain ⟨hsecond, hindex', -⟩ :=
    hfirst.write (p := ⟨["a", "b"]⟩) (by decide) (by decide) (by rw [hoperators]; decide) (.ofJson (.bool true))
  refine ⟨hsecond.scopes, ?_⟩
  refine hindex'.trans ?_
  rw [hindex]
  rfl

theorem read_eclipsed {p : Path} (hp : p.Plain) :
    eclipsed.view.read p =
      some ((((Dict.empty.insert "s.a.b" (.ofJson .null)).insert "a.b" (.ofJson (.bool true))).get? p.key).bind
        (eclipsed.view.plain? p)) := by
  obtain ⟨hscopes, hindex⟩ := eclipsed_parts
  have hpointerless : eclipsed.index.Pointerless := by
    rw [hindex]
    exact (Index.pointerless_empty.insert (fun _ => Value.noConfusion) _).insert (fun _ => Value.noConfusion) _
  have hclear : eclipsed.view.scopes.hidingScope? p = none := by
    rw [show eclipsed.view.scopes = eclipsed.scopes from rfl, hscopes]
    exact Scopes.hidingScope?_empty p
  have hdirect := Selector.direct_of_plain hp
  have hread := eclipsed.view.read_clear hdirect.free (by rwa [hdirect.normal]) (hpointerless.redirect? _)
  rwa [hdirect.normal, show eclipsed.view.index = eclipsed.index from rfl, hindex] at hread

theorem eclipsed_reads :
    eclipsed.view.read ⟨["s", "a", "b"]⟩ = some (some (.ofJson .null)) ∧
      eclipsed.view.read ⟨["a", "b"]⟩ = some (some (.ofJson (.bool true))) ∧
      eclipsed.view.read ⟨["t", "a", "b"]⟩ = some none := by
  refine ⟨?_, ?_, ?_⟩ <;> rw [read_eclipsed (by decide)] <;> rfl

/-- The negation is bound wherever its label is. -/
theorem bindReferences_eclipsed {scope p : Path}
    (h : Derivation.bindPath eclipsed.resolver scope "a.b" = some p) :
    Derivation.bindReferences eclipsed.resolver "!a.b" scope = some [⟨"a.b", p.key⟩] := by
  have hlabels : Derivation.boundLabels "!a.b" = ["a.b"] := by decide
  refine Derivation.bindReferences_eq_some_iff.mpr ⟨fun label hlabel => ?_, ?_⟩
  · obtain rfl := List.mem_singleton.mp (hlabels ▸ hlabel)
    rw [h]
    rfl
  · rw [hlabels, List.filterMap_cons_some (by rw [h]; rfl)]
    rfl

/-- A label that reads as nothing below the scope is bound to its value from the root. -/
theorem references_read_eclipsed :
    Expr.resolveIdentifier eclipsed.resolver ⟨["t"]⟩ "a.b" = some (some (.ofJson (.bool true))) ∧
      ∃ q refs, eclipsed.view.read q = some (some (.ofJson (.bool true))) ∧
        Derivation.bindReferences eclipsed.resolver "!a.b" ⟨["t"]⟩ = some refs ∧ ∃ r ∈ refs, r.path = q.key := by
  obtain ⟨-, habsolute, hrelative⟩ := eclipsed_reads
  have hcanonical : Path.canonical "a.b" = ⟨["a", "b"]⟩ := by decide
  have hparse : Path.parse "a.b" = ⟨["a", "b"]⟩ := by decide
  have hjoin : Path.join ⟨["t"]⟩ ⟨["a", "b"]⟩ = ⟨["t", "a", "b"]⟩ := rfl
  rw [← hjoin] at hrelative
  have hvalue : Expr.resolveIdentifier eclipsed.resolver ⟨["t"]⟩ "a.b" = some (some (.ofJson (.bool true))) :=
    Bare.resolve_label eclipsed (by decide) (hparse ▸ hrelative) (hparse ▸ habsolute)
  rw [← hcanonical] at hrelative habsolute
  have hnull : eclipsed.view.read (Path.join ⟨["t"]⟩ (Path.canonical "a.b")) ≠ some (some .null) := by
    rw [hrelative]
    exact nofun
  have hlabel : "a.b" ∈ Expr.references "!a.b" := by decide
  have hbound := bindReferences_eclipsed (Derivation.bindPath_absolute hrelative habsolute)
  obtain ⟨q, hread, -, hreferences, -⟩ :=
    references_read hlabel (by decide) hvalue (View.readsAlike_of_canonical (by decide)) hnull
  exact ⟨hvalue, q, _, hread, hbound, (hreferences _ hbound).1⟩

/-- **A null below the scope takes the place of the value that is read.** The label stands for the value from the root,
and the only reference reads as null. -/
theorem references_miss :
    Reached (fun c => c.isLocal = true) eclipsed ∧ "a.b" ∈ Expr.references "!a.b" ∧
      Expr.pointerLabel? "a.b" = none ∧
      Expr.resolveIdentifier eclipsed.resolver ⟨["s"]⟩ "a.b" = some (some (.ofJson (.bool true))) ∧
      ∃ refs, Derivation.bindReferences eclipsed.resolver "!a.b" ⟨["s"]⟩ = some refs ∧
        ∀ r ∈ refs, eclipsed.view.read (Path.ofKey r.path) = some (some .null) := by
  obtain ⟨hrelative, habsolute, -⟩ := eclipsed_reads
  have hcanonical : Path.canonical "a.b" = ⟨["a", "b"]⟩ := by decide
  have hparse : Path.parse "a.b" = ⟨["a", "b"]⟩ := by decide
  have hjoin : Path.join ⟨["s"]⟩ ⟨["a", "b"]⟩ = ⟨["s", "a", "b"]⟩ := rfl
  rw [← hjoin] at hrelative
  refine ⟨eclipsed_reached, by decide, by decide, ?_, _,
    bindReferences_eclipsed (Derivation.bindPath_relative (hcanonical ▸ hrelative)), fun r hr => ?_⟩
  · exact Bare.resolve_label eclipsed (by decide) (hparse ▸ hrelative) (hparse ▸ habsolute)
  · obtain rfl := List.mem_singleton.mp hr
    have hkey : Path.ofKey (Path.key ⟨["s", "a", "b"]⟩) = ⟨["s", "a", "b"]⟩ := by decide
    rw [hcanonical, hjoin, hkey]
    exact hrelative

end Store

end PathLedger
