import PathLedger.Proofs.Store.Declarations
import PathLedger.Proofs.Store.Hops
import PathLedger.Proofs.Store.Transparency

/-!
# Pointers stand for their targets

A path behind a pointer reads as the same path behind the target of the pointer. A read of the path itself looks for a
scope that hides it before it looks for pointers; a read that comes by way of a pointer has walked the pointers of the
index before it looks for such a scope. The two agree where a hidden target is not redirected by another pointer.

* `View.Arrives.of_redirected` — a read of a redirected path goes on where the pointer leads.
* `Store.Alias` — a pointer, and a path behind it that no other pointer redirects.
* `Store.read_alias` — **a path behind a pointer reads as the one behind its target**.
* `Store.shadowed_alias` — a pointer above a hidden target leads away from it.
-/

namespace PathLedger

namespace View

variable {view : View} {budget : Nat} {p q : Path} {found : Option Value}

/-- **A read of a redirected path goes on where the pointer leads**, with one hop less. A hidden path has no entry in
the index, and the walk has to end there. -/
theorem Arrives.of_redirected (h : view.Arrives budget p found) (hclear : view.scopes.hidingScope? p = none)
    (hself : view.index.pointerAt? p = none) (hredirect : view.index.redirect? p = some q)
    (hend : view.index.pointerAt? q = none)
    (hhidden : (view.scopes.hidingScope? q).isSome → view.index.entry q = none ∧ view.index.redirect? q = none) :
    ∃ n, budget = n + 1 ∧ view.Arrives n q found := by
  have hqself := Index.pointerAt?_eq_none.mp hend
  have hqclear (hmoves : view.index.redirect? q ≠ none ∨ view.index.entry q ≠ none) :
      view.scopes.hidingScope? q = none := by
    cases hscope : view.scopes.hidingScope? q with
    | none => rfl
    | some scope =>
      obtain ⟨hentry, hstays⟩ := hhidden (by rw [hscope]; rfl)
      exact absurd hmoves (by simp [hentry, hstays])
  cases h with
  | opened hscope _ =>
    rw [hclear] at hscope
    cases hscope
  | hop hscope _ _ =>
    rw [hclear] at hscope
    cases hscope
  | marker _ hpointer => exact absurd hpointer (Index.pointerAt?_eq_none.mp hself _)
  | walked _ _ hends hstops =>
    obtain ⟨haway, n, rfl, hwalk⟩ := Index.walk_redirected hredirect hends
    have hraw := hstops.resolve_right haway
    rw [hwalk] at hends hraw ⊢
    refine ⟨n, rfl, .walked (hqclear ?_) hqself hends (.inl hraw)⟩
    cases hmoves : view.index.redirect? q with
    | some _ => exact .inl (Option.some_ne_none _)
    | none =>
      rw [Index.walk_of_redirect?_eq_none hmoves] at hraw
      exact .inr hraw
  | anew _ _ hends hraw _ hanew =>
    obtain ⟨-, n, rfl, hwalk⟩ := Index.walk_redirected hredirect hends
    rw [hwalk] at hends hraw hanew
    refine ⟨n, rfl, ?_⟩
    cases hmoves : view.index.redirect? q with
    | none =>
      -- The walk ends at once, so the read starts anew at the target itself.
      rwa [Index.walk_of_redirect?_eq_none hmoves] at hanew
    | some _ =>
      have haway := (Index.walk_redirected hmoves hends).1
      exact .anew (hqclear (.inl (by simp [hmoves]))) hqself hends hraw haway hanew

end View

namespace Store

variable {s : Store} {a target tail : Path}

/-- A pointer at `a`, and a path behind it that no other pointer redirects. Neither that path, which is in clear, nor
the same path behind the target is too many hops away. -/
structure Alias (s : Store) (a target tail : Path) : Prop where
  source : a.Plain
  points : s.index.pointerAt? a = some target
  tail_plain : tail.Plain
  behind : tail.isRoot = false
  clear : s.scopes.hidingScope? (a.join tail) = none
  deepest : ∀ n, a.length < n → n ≤ (a.join tail).length → s.index.pointerAt? ((a.join tail).take n) = none
  leads : s.index.pointerAt? (target.join tail) = none
  pointers : s.view.PlainPointers
  near : ∃ found, s.view.Arrives maxHops (a.join tail) found
  near_target : ∃ found, s.view.Arrives maxHops (target.join tail) found

theorem Alias.redirected (h : Alias s a target tail) :
    s.index.redirect? (a.join tail) = some (target.join tail) := by
  have hredirect := Index.redirect?_of_deepest (a.length_lt_join h.behind) (by rw [Path.take_join, h.points]) h.deepest
  rwa [Path.drop_join] at hredirect

/-- **A path behind a pointer reads as the one behind its target**, also when that lies in a secret scope, as long as
no pointer stands above a target that is hidden. -/
theorem read_alias (hs : Reached (fun _ => True) s) (h : Alias s a target tail)
    (hshadow : (s.scopes.hidingScope? (target.join tail)).isSome →
      ∀ n < (target.join tail).length, s.index.pointerAt? ((target.join tail).take n) = none) :
    ∃ found, s.read (a.join tail).key = some found ∧ s.read (target.join tail).key = some found := by
  have hplain : (a.join tail).Plain := h.source.join h.tail_plain
  have htarget : (target.join tail).Plain := (h.pointers.index a target h.points).join h.tail_plain
  have hself : s.index.pointerAt? (a.join tail) = none := by
    have := h.deepest _ (a.length_lt_join h.behind) (Nat.le_refl _)
    rwa [Path.take_length] at this
  have hhidden : (s.scopes.hidingScope? (target.join tail)).isSome →
      s.index.entry (target.join tail) = none ∧ s.index.redirect? (target.join tail) = none := by
    intro hscope
    constructor
    · cases hentry : s.index.entry (target.join tail) with
      | none => rfl
      | some v =>
        rw [Index.entry, hs.indexCurrent] at hentry
        have hclear := Index.materialize_not_hidden hentry
        rw [htarget.ofKey_key] at hclear
        rw [hclear] at hscope
        cases hscope
    · refine Index.redirect?_eq_none fun n hn => ?_
      rcases Nat.lt_or_eq_of_le hn with hlt | rfl
      · exact hshadow hscope n hlt
      · rw [Path.take_length]
        exact h.leads
  obtain ⟨found, hfound⟩ := h.near
  obtain ⟨n, hbudget, hgoes⟩ := hfound.of_redirected h.clear hself h.redirected h.leads hhidden
  have hread := hfound.read_eq h.pointers hplain
  have hread' := (hbudget ▸ hgoes.succ : s.view.Arrives maxHops _ _).read_eq h.pointers htarget
  rw [read, read, Path.parse_key hplain, Path.parse_key htarget]
  exact ⟨found, hread, hread'⟩

/-! ## Pointers into a secret scope -/

/-- A store with a secret at `x.y` and nothing sealed, in which pointers are being put in clear. -/
structure Veiled (s : Store) (index : Index) (n : Nat) : Prop where
  reached : Reached (fun _ => True) s
  settled : Settled s
  operators : s.operators = .initial
  scopes : s.scopes = Scopes.empty.declareSecret ⟨["x", "y"]⟩ "k"
  branches : s.branches = .empty
  index : s.index = index
  ticks : Ticks s n

/-- A store in which a value has been put below the secret. -/
structure Lodged (s : Store) (index : Index) : Prop where
  reached : Reached (fun _ => True) s
  scopes : s.scopes = Scopes.empty.declareSecret ⟨["x", "y"]⟩ "k"
  fields : s.branchFields ⟨["x", "y"]⟩ = [("v", .ofJson (.int 1))]
  index : s.index = index

theorem veiled_start : Veiled ((empty (.ticking 1000 1)).after (.declareSecret "x.y" "k")) .empty 3 := by
  have hscope : Path.canonical "x.y" = ⟨["x", "y"]⟩ := by decide
  have hsecret := oneSecret (.ticking 1000 1) "x.y" "k"
  rw [hscope] at hsecret
  have hsettled : Settled (empty (.ticking 1000 1)) := fun _ => rfl
  have hticks : Ticks (empty (.ticking 1000 1)) 4 := ticks_empty (increasing_ticking (by decide))
  refine ⟨(Reached.start _).call (.declareSecret "x.y" "k") trivial, hsecret.settled, hsecret.operators,
    hsecret.scopes, hsecret.branches, hsecret.index, hticks.declareSecret hsettled "x.y" "k"⟩

namespace Veiled

variable {index : Index} {n : Nat}

theorem point (h : Veiled s index (n + 1)) {p : Path} (raw text : String) (hp : p.Plain)
    (hclear : (Scopes.empty.declareSecret ⟨["x", "y"]⟩ "k").hidingScope? p = none)
    (hpoints : ∀ path, Operator.classifyKind .pointer (Path.parse raw) path (.text text) = .ok (.point p text)) :
    Veiled (s.after (.definePointer raw text)) (index.insert p.key (.pointer text)) n := by
  have hclear : s.scopes.hidingScope? p = none := by rw [h.scopes, hclear]
  have hcommit : s.after (.definePointer raw text) = (s.commitValue p (.pointer text) (some .pointer)).1 := by
    show (s.definePointer raw text).store = _
    rw [definePointer, Outcome.store_done, callKind_store hpoints]
    exact congrArg Prod.fst (put_of_settled h.settled p _ _)
  have hreached := h.reached.call (.definePointer raw text) trivial
  rw [hcommit] at hreached ⊢
  refine ⟨hreached, h.settled.of_derivations (commitValue_derivations s p _ _), ?_, ?_, ?_, ?_,
    h.ticks.commitValue p _ _⟩
  · rw [commitValue_operators, h.operators]
  · rw [commitValue_scopes, h.scopes]
  · rw [commitValue_clear hclear, commit_branches, h.branches]
  · rw [commitValue_index_of_setsKey h.reached.indexCurrent h.ticks.fresh hp.clean hclear _ rfl,
      storedForm_of_isMarker rfl, h.index]

theorem write (h : Veiled s index (n + 1)) :
    Lodged (s.after (.write "x.y.v" (.ofJson (.int 1)) none)) index := by
  have hplain : Path.Plain ⟨["x", "y", "v"]⟩ := by decide
  have hscope : s.scopes.hidingScope? ⟨["x", "y", "v"]⟩ = some ⟨["x", "y"]⟩ := by
    rw [h.scopes]
    decide
  have hfields : s.branchFields ⟨["x", "y"]⟩ = [] := branchFields_of_get?_eq_none (by rw [h.branches]; rfl)
  have hsealed : s.fieldsWith ⟨["x", "y"]⟩ ⟨["x", "y", "v"]⟩ (.ofJson (.int 1)) = [("v", .ofJson (.int 1))] := by
    rw [fieldsWith, hfields]
    rfl
  have hfits : SealFits s ⟨["x", "y", "v"]⟩ (.ofJson (.int 1)) := by
    rw [SealFits, hscope]
    dsimp only
    rw [hsealed]
    decide
  have hstore : s.after (.write "x.y.v" (.ofJson (.int 1)) none) =
      (s.commitValue ⟨["x", "y", "v"]⟩ (.ofJson (.int 1)) none).1 :=
    (write_plain h.settled hplain (by decide) (by rw [h.operators]; decide) (.ofJson (.int 1))).1
  have hreached := h.reached.call (.write "x.y.v" (.ofJson (.int 1)) none) trivial
  rw [hstore] at hreached ⊢
  refine ⟨hreached, ?_, ?_, ?_⟩
  · rw [commitValue_scopes, h.scopes]
  · rw [branchFields_commitValue hscope (Value.ofJson_ordered _) hfits, hsealed]
  · rw [commitValue_index_of_hidden h.reached.indexCurrent h.ticks.fresh hplain.clean hscope, h.index]

end Veiled

namespace Lodged

variable {index : Index}

theorem branchEntry? (h : Lodged s index) :
    s.view.branchEntry? ⟨["x", "y"]⟩ ⟨["x", "y", "v"]⟩ = some (.ofJson (.int 1)) := by
  rw [branchEntry?_eq (by decide), h.fields]
  rfl

theorem opened (h : Lodged s index) (budget : Nat) :
    s.view.Arrives budget ⟨["x", "y", "v"]⟩ (some (.ofJson (.int 1))) := by
  have hscope : s.view.scopes.hidingScope? ⟨["x", "y", "v"]⟩ = some ⟨["x", "y"]⟩ := by
    show s.scopes.hidingScope? _ = _
    rw [h.scopes]
    decide
  have hentry := h.branchEntry?
  rw [← hentry]
  refine .opened hscope fun target htarget => ?_
  exact (Value.ofJson_isData (.int 1)).ne_pointer target (Option.some.inj (hentry.symm.trans htarget))

/-- No pointer has been put into a branch. -/
theorem pointers (h : Lodged s index)
    (hindex : ∀ key target, index.get? key = some (.pointer target) → (Path.canonical target).Plain) :
    s.view.PlainPointers := by
  constructor
  · intro p q hq
    obtain ⟨target, htarget, rfl⟩ := Option.map_eq_some_iff.mp hq
    obtain ⟨v, hentry, hv⟩ := Option.bind_eq_some_iff.mp htarget
    cases v with
    | pointer _ =>
      cases hv
      exact hindex p.key target (h.index ▸ hentry)
    | _ => cases hv
  · intro p scope target hp hscope hentry
    obtain ⟨n, hpos, hle, rfl, hlive, -⟩ := Scopes.hidingScope?_eq_some_iff.mp hscope
    have hkey : (p.take n).key = Path.key ⟨["x", "y"]⟩ := by
      by_contra hne
      rw [show s.view.scopes = s.scopes from rfl, h.scopes, Scopes.liveAt_declareSecret_of_ne hne] at hlive
      cases hlive
    have hxy : Path.Plain ⟨["x", "y"]⟩ := by decide
    have htake : p.take n = ⟨["x", "y"]⟩ := Path.key_inj (hp.take n).clean hxy.clean hkey
    by_cases hlength : p.length = n
    · rw [View.branchEntry?, if_pos (by rw [hlength, Path.length_take hle])] at hentry
      cases hentry
    · have hbelow : (p.take n).length < p.length := by
        rw [Path.length_take hle]
        omega
      obtain ⟨name, rest, hnames⟩ := List.exists_cons_of_ne_nil (Path.drop_ne_nil hbelow)
      rw [branchEntry?_eq hbelow, hnames, htake, h.fields, Value.lookupAt_cons] at hentry
      obtain ⟨w, hw, hfound⟩ := Option.bind_eq_some_iff.mp hentry
      obtain rfl : .ofJson (.int 1) = w := by
        unfold Entries.get? at hw
        split at hw
        · exact Option.some.inj hw
        · cases hw
      cases rest with
      | nil => exact absurd (Option.some.inj hfound) ((Value.ofJson_isData (.int 1)).ne_pointer target)
      | cons => cases hfound

/-- A walk from `a.v` that leads to no entry hands over to a read of where it ended. -/
theorem walked_on (h : Lodged s index) {q : Path} {left : Nat} {found : Option Value}
    (hentry : index.get? "a.v" = none) (hwalk : index.walk maxHops ⟨["a", "v"]⟩ = ⟨q, none, false, left⟩)
    (haway : q ≠ ⟨["a", "v"]⟩) (hfound : s.view.Arrives left q found) :
    s.view.Arrives maxHops ⟨["a", "v"]⟩ found := by
  have hclear : s.view.scopes.hidingScope? ⟨["a", "v"]⟩ = none := by
    show s.scopes.hidingScope? _ = _
    rw [h.scopes]
    decide
  have hwalk : s.view.index.walk maxHops ⟨["a", "v"]⟩ = ⟨q, none, false, left⟩ := by
    rw [show s.view.index = index from h.index, hwalk]
  have hself : ∀ target, s.view.index.entry ⟨["a", "v"]⟩ ≠ some (.pointer target) := by
    intro target htarget
    rw [show s.view.index = index from h.index] at htarget
    rw [show index.entry ⟨["a", "v"]⟩ = none from hentry] at htarget
    cases htarget
  refine .anew hclear hself ?_ ?_ ?_ ?_ <;> rw [hwalk] <;> assumption

/-- The pointer at `a` into the secret scope, and the value behind it. -/
theorem pointing (h : Lodged s index)
    (hindex : ∀ key target, index.get? key = some (.pointer target) → (Path.canonical target).Plain)
    (hpoints : index.pointerAt? ⟨["a"]⟩ = some ⟨["x", "y"]⟩) (hself : index.pointerAt? ⟨["a", "v"]⟩ = none)
    (hleads : index.pointerAt? ⟨["x", "y", "v"]⟩ = none)
    (hnear : ∃ found, s.view.Arrives maxHops ⟨["a", "v"]⟩ found) : Alias s ⟨["a"]⟩ ⟨["x", "y"]⟩ ⟨["v"]⟩ where
  source := by decide
  points := by rw [h.index, hpoints]
  tail_plain := by decide
  behind := rfl
  clear := by
    rw [h.scopes]
    decide
  deepest n hn hle := by
    obtain rfl : n = 2 := Nat.le_antisymm hle hn
    rw [h.index]
    exact hself
  leads := by
    rw [h.index]
    exact hleads
  pointers := h.pointers hindex
  near := hnear
  near_target := ⟨_, h.opened maxHops⟩

end Lodged

/-- A pointer into a secret scope. -/
def aliased : Store :=
  (((empty (.ticking 1000 1)).after (.declareSecret "x.y" "k")).after (.definePointer "a" "x.y")).after
    (.write "x.y.v" (.ofJson (.int 1)) none)

/-- A pointer into a secret scope, and another one above that scope. -/
def shadowed : Store :=
  ((((empty (.ticking 1000 1)).after (.declareSecret "x.y" "k")).after (.definePointer "a" "x.y")).after
    (.definePointer "x" "z")).after (.write "x.y.v" (.ofJson (.int 1)) none)

/-- The pointers of the two stores. -/
def oneAlias : Index := Dict.empty.insert "a" (.pointer "x.y")

def twoAliases : Index := oneAlias.insert "x" (.pointer "z")

theorem oneAlias_plain {key target : String} (h : oneAlias.get? key = some (.pointer target)) :
    (Path.canonical target).Plain := by
  rw [oneAlias, Index.get?_insert_eq] at h
  split at h
  · cases h
    decide
  · cases h

theorem twoAliases_plain {key target : String} (h : twoAliases.get? key = some (.pointer target)) :
    (Path.canonical target).Plain := by
  rw [twoAliases, Index.get?_insert_eq] at h
  split at h
  · cases h
    decide
  · exact oneAlias_plain h

theorem veiled_point : Veiled (((empty (.ticking 1000 1)).after (.declareSecret "x.y" "k")).after
    (.definePointer "a" "x.y")) oneAlias 2 :=
  veiled_start.point (p := ⟨["a"]⟩) "a" "x.y" (by decide) (by decide) fun _ => rfl

theorem aliased_lodged : Lodged aliased oneAlias := veiled_point.write

theorem shadowed_lodged : Lodged shadowed twoAliases :=
  (veiled_point.point (p := ⟨["x"]⟩) "x" "z" (by decide) (by decide) fun _ => rfl).write

/-- What is put into a secret scope is read behind a pointer to it. -/
theorem read_alias_aliased :
    Reached (fun _ => True) aliased ∧ Alias aliased ⟨["a"]⟩ ⟨["x", "y"]⟩ ⟨["v"]⟩ ∧
      aliased.read "a.v" = some (some (.ofJson (.int 1))) ∧
      aliased.read "x.y.v" = some (some (.ofJson (.int 1))) := by
  have h := aliased_lodged
  have hwalk : oneAlias.walk maxHops ⟨["a", "v"]⟩ = ⟨⟨["x", "y", "v"]⟩, none, false, 7⟩ := by decide +kernel
  have halias := h.pointing (fun _ _ => oneAlias_plain) (by decide +kernel) (by decide +kernel) (by decide +kernel)
    ⟨_, h.walked_on rfl hwalk (by decide) (h.opened 7)⟩
  have hkey : (Path.join ⟨["a"]⟩ ⟨["v"]⟩).key = "a.v" := rfl
  have hkey' : (Path.join ⟨["x", "y"]⟩ ⟨["v"]⟩).key = "x.y.v" := rfl
  have hnone : ∀ n < 3, oneAlias.pointerAt? (Path.take ⟨["x", "y", "v"]⟩ n) = none := by decide +kernel
  obtain ⟨found, hnear, htarget⟩ := read_alias h.reached halias fun _ n hn => h.index ▸ hnone n hn
  have hread : aliased.read "x.y.v" = some (some (.ofJson (.int 1))) :=
    (h.opened maxHops).read_eq halias.pointers (by decide)
  rw [hkey] at hnear
  rw [hkey', hread] at htarget
  exact ⟨h.reached, halias, hnear.trans htarget.symm, hread⟩

/-- **A pointer above a hidden target leads away from it.** A read of the target finds what is hidden, and a read
behind the pointer into the scope is led on to where nothing is. -/
theorem shadowed_alias :
    Reached (fun _ => True) shadowed ∧ Alias shadowed ⟨["a"]⟩ ⟨["x", "y"]⟩ ⟨["v"]⟩ ∧
      shadowed.read "x.y.v" = some (some (.ofJson (.int 1))) ∧ shadowed.read "a.v" = some none := by
  have h := shadowed_lodged
  have hwalk : twoAliases.walk maxHops ⟨["a", "v"]⟩ = ⟨⟨["z", "y", "v"]⟩, none, false, 6⟩ := by decide +kernel
  have hclear : shadowed.view.scopes.hidingScope? ⟨["z", "y", "v"]⟩ = none := by
    show shadowed.scopes.hidingScope? _ = _
    rw [h.scopes]
    decide
  have hself : ∀ target, shadowed.view.index.entry ⟨["z", "y", "v"]⟩ ≠ some (.pointer target) := by
    rw [show shadowed.view.index = twoAliases from h.index]
    exact Index.pointerAt?_eq_none.mp (by decide +kernel)
  have hstays : shadowed.view.index.walk 6 ⟨["z", "y", "v"]⟩ = ⟨⟨["z", "y", "v"]⟩, none, false, 6⟩ := by
    rw [show shadowed.view.index = twoAliases from h.index]
    decide +kernel
  have hlost : shadowed.view.Arrives 6 ⟨["z", "y", "v"]⟩ none := by
    have hwalked := View.Arrives.walked hclear hself (by rw [hstays]) (.inr (by rw [hstays]))
    rwa [hstays] at hwalked
  have hread := h.walked_on rfl hwalk (by decide) hlost
  have halias := h.pointing (fun _ _ => twoAliases_plain) (by decide +kernel) (by decide +kernel) (by decide +kernel)
    ⟨none, hread⟩
  refine ⟨h.reached, halias, ?_, ?_⟩
  · exact (h.opened maxHops).read_eq halias.pointers (by decide)
  · exact hread.read_eq halias.pointers (by decide)

end Store

end PathLedger
