import PathLedger.Proofs.Store.Edits

/-!
# Secrets do not show in reads

Values are written and removed at separate paths, once in a store with declarations of secrets and noises
and once in a store with none. Reads cannot tell the two stores apart.

* `Clock.Increasing`, `Store.Ticks` — a clock whose next readings are each later than all before.
* `Edit`, `Declaration` — the calls of the two runs.
* `Edit.latest` — what the last edit of a path leaves there.
* `Store.read_run` — **a run of edits reads as the last edit of each path**, whatever is declared before it.
* `Store.read_transparent` — **declarations do not change what is read**.
-/

namespace PathLedger

/-- The next readings are each later than the ones before. -/
def Clock.Increasing (c : Clock) (n : Nat) : Prop :=
  ∀ i j, i < j → j < n → c.readings (c.taken + i) < c.readings (c.taken + j)

/-! ## Calls -/

/-- A value written at a path, or a path removed. -/
inductive Edit where
  | write (p : Path) (j : Json)
  | remove (p : Path)

namespace Edit

def path : Edit → Path
  | write p _ => p
  | remove p => p

def call : Edit → Call
  | write p j => .write p.key (.ofJson j) none
  | remove p => .remove p.key

/-- What an edit leaves at its path. -/
def content : Edit → Option Value
  | write _ j => some (.ofJson j)
  | remove _ => none

/-- The most bytes that an edit adds to a branch. The ledger keeps every edit, so for edits in any memory
these numbers add up to one of 64 bits. -/
def room : Edit → Nat
  | write p j => Store.roomAt p (.ofJson j)
  | remove p => Store.roomAt p Store.removalMarker

/-- What the last edit of a path leaves there, or what was found there before. -/
def latest (p : Path) (found : Option Value) (edits : List Edit) : Option Value :=
  edits.foldl (fun found e => if e.path = p then e.content else found) found

theorem content_ne_pointer (e : Edit) (target : String) : e.content ≠ some (.pointer target) := by
  cases e with
  | write p j => exact fun h => (Value.ofJson_isData j).ne_pointer target (Option.some.inj h)
  | remove p => exact fun h => nomatch h

theorem latest_ne_pointer {found : Option Value} (hfound : ∀ target, found ≠ some (.pointer target))
    (p : Path) (edits : List Edit) (target : String) : latest p found edits ≠ some (.pointer target) := by
  induction edits generalizing found with
  | nil => exact hfound target
  | cons e rest ih =>
    refine ih fun target => ?_
    show (if e.path = p then e.content else found) ≠ _
    split
    · exact e.content_ne_pointer target
    · exact hfound target

end Edit

/-- A secret or a noise declared at a scope. -/
inductive Declaration where
  | secret (scope : Path) (text : String)
  | noise (scope : Path) (text : String)

namespace Declaration

def scope : Declaration → Path
  | secret scope _ => scope
  | noise scope _ => scope

def call : Declaration → Call
  | secret scope text => .declareSecret scope.key text
  | noise scope text => .declareNoise scope.key text

end Declaration

namespace Store

variable {P : Path → Prop} {used n : Nat} {s t : Store} {p : Path}

/-- The store that a row of calls leaves behind. -/
def run (s : Store) (calls : List Call) : Store := calls.foldl after s

/-! ## Clocks -/

/-- The next readings of the clock are each later than the ones before and than all records. -/
structure Ticks (s : Store) (n : Nat) : Prop where
  increasing : s.clock.Increasing n
  behind : ∀ r ∈ s.ledger.records, ∀ i < n, r.timestamp < s.clock.readings (s.clock.taken + i)

/-- A clock that ticks runs forward. -/
theorem increasing_ticking (hn : n ≤ 16) : (Clock.ticking 1000 1).Increasing n := by
  have hticking : ∀ j < 16, ∀ i < j,
      (Clock.ticking 1000 1).readings (0 + i) < (Clock.ticking 1000 1).readings (0 + j) := by decide
  exact fun i j hij hj => hticking j (Nat.lt_of_lt_of_le hj hn) i hij

theorem ticks_empty {clock : Clock} (h : clock.Increasing n) : Ticks (empty clock) n := ⟨h, fun _ hr => nomatch hr⟩

theorem Ticks.fresh (h : Ticks s (n + 1)) : Fresh s := fun r hr => h.behind r hr 0 (Nat.succ_pos n)

/-- A commit takes one reading. -/
theorem Ticks.commit (h : Ticks s (n + 1)) (hledger : t.ledger = s.ledger) (hclock : t.clock = s.clock)
    (d : Draft) :
    Ticks (t.commit d).1 n := by
  have hnext (i : Nat) : (t.commit d).1.clock.readings ((t.commit d).1.clock.taken + i) =
      s.clock.readings (s.clock.taken + (i + 1)) := by
    rw [commit_clock, hclock, Nat.add_comm i, ← Nat.add_assoc]
    rfl
  constructor
  · intro i j hij hj
    rw [hnext, hnext]
    exact h.increasing (i + 1) (j + 1) (by omega) (by omega)
  · intro r hr i hi
    rw [commit_records, hledger] at hr
    rw [hnext]
    rcases List.mem_append.mp hr with hr | hr
    · exact h.behind r hr (i + 1) (by omega)
    · obtain rfl := List.mem_singleton.mp hr
      show t.clock.now < _
      rw [hclock]
      exact h.increasing 0 (i + 1) (by omega) (by omega)

theorem Ticks.commitValue (h : Ticks s (n + 1)) (p : Path) (v : Value) (operator : Option Operator.Kind) :
    Ticks (s.commitValue p v operator).1 n := by
  unfold Store.commitValue
  split
  · rename_i scope _
    have hframe := frame_writeBranch s scope p v
    exact h.commit hframe.ledger hframe.clock _
  · exact h.commit rfl rfl _

theorem Ticks.declareSecret (h : Ticks s (n + 1)) (hsettled : Settled s) (raw secret : String) :
    Ticks (s.declareSecret raw secret).store n := by
  rw [declareSecret_store hsettled, commitMarker]
  exact h.commit (t := { s with scopes := s.scopes.declareSecret (Path.canonical raw) secret }) rfl rfl _

theorem Ticks.removeSubtree (h : Ticks s (n + 1)) (target : Path) : Ticks (s.removeSubtree target).1 n := by
  have hframe := frame_pruned s target
  rw [removeSubtree_eq]
  exact h.commit hframe.ledger hframe.clock _

/-! ## Runs of edits -/

/-- No operator is called by a plain name. -/
theorem kindOf?_initial {symbol : String} (h : Text.isWord symbol) :
    Operator.Registry.initial.kindOf? symbol = none := by
  have hsymbols : ∀ e ∈ Operator.Registry.initial.entries, ¬Text.isWord e.1 := by decide
  cases hkind : Operator.Registry.initial.kindOf? symbol with
  | none => rfl
  | some kind => exact absurd h (hsymbols _ (Dict.get?_eq_some_iff_mem.mp hkind))

theorem Tidy.after_write (h : Tidy P used s) (hP : Path.Separate P) (hp : P p) (j : Json) :
    s.after (Edit.write p j).call = (s.commitValue p (.ofJson j) none).1 := by
  have hleaf : ∀ leaf, p.last? = some leaf → s.operators.kindOf? leaf = none := by
    intro leaf hleaf
    rw [h.operators]
    exact kindOf?_initial (Text.isWord_iff.mpr (hP.plain hp leaf (List.mem_of_getLast? hleaf)))
  exact (write_plain h.settled (hP.plain hp) (hP.nonroot hp) hleaf (.ofJson j)).1

theorem after_remove (s : Store) (hp : p.Plain) : s.after (Edit.remove p).call = (s.removeSubtree p).1 := by
  show (s.remove p.key).store = _
  rw [remove, Path.canonical_key hp]

/-- One edit. -/
theorem Tidy.edit (h : Tidy P used s) (hP : Path.Separate P) {e : Edit} (he : P e.path)
    (hticks : Ticks s (n + 1)) (hfits : used + e.room < 2 ^ 64) :
    Sets P e.path e.content s (s.after e.call) ∧ Tidy P (used + e.room) (s.after e.call) ∧
      Ticks (s.after e.call) n := by
  cases e with
  | write p j =>
    have hp : P p := he
    have hordered := Value.ofJson_ordered j
    have hdata := Value.ofJson_isData j
    rw [h.after_write hP hp]
    exact ⟨h.sets_commitValue hP hp hticks.fresh hfits hordered hdata,
      h.commitValue hP hp hfits hordered hdata, hticks.commitValue p _ none⟩
  | remove p =>
    have hp : P p := he
    rw [after_remove s (hP.plain hp)]
    exact ⟨h.sets_removeSubtree hP hp hticks.fresh, (h.removeSubtree hP hp).mono (Nat.le_add_right _ _),
      hticks.removeSubtree p⟩

/-- A row of edits. -/
theorem Tidy.run (h : Tidy P used s) (hP : Path.Separate P) {edits : List Edit}
    (hedits : ∀ e ∈ edits, P e.path) (hticks : Ticks s edits.length)
    (hfits : used + (edits.map Edit.room).sum < 2 ^ 64) :
    (∃ more, Tidy P more (s.run (edits.map Edit.call))) ∧
      ∀ p, P p → (s.run (edits.map Edit.call)).held p = Edit.latest p (s.held p) edits := by
  induction edits generalizing s used with
  | nil => exact ⟨⟨used, h⟩, fun _ _ => rfl⟩
  | cons e rest ih =>
    rw [List.map_cons, List.sum_cons] at hfits
    obtain ⟨hsets, htidy, hticks⟩ := h.edit hP (hedits e List.mem_cons_self) hticks (by omega)
    obtain ⟨hmore, hheld⟩ := ih htidy (fun a ha => hedits a (List.mem_cons_of_mem _ ha)) hticks (by omega)
    refine ⟨hmore, fun p hp => ?_⟩
    have hfirst : (s.after e.call).held p = if e.path = p then e.content else s.held p := by
      split
      · rename_i heq
        rw [← heq, hsets.self]
      · rename_i hne
        exact hsets.others p hp (Ne.symm hne)
    rw [Edit.latest, List.foldl_cons, ← hfirst]
    exact hheld p hp

/-! ## Declarations -/

/-- A store in which nothing has been done but declare. -/
structure Declared (P : Path → Prop) (s : Store) : Prop where
  settled : Settled s
  operators : s.operators = .initial
  current : IndexCurrent s
  records : ∀ r ∈ s.ledger.records, Index.setsKey r = false
  silent : ∀ p, P p → s.scopes.liveAt p = false
  branches : s.branches = .empty

theorem declared_empty (P : Path → Prop) (clock : Clock) : Declared P (empty clock) where
  settled _ := rfl
  operators := rfl
  current := indexCurrent_empty clock
  records _ hr := nomatch hr
  silent _ _ := rfl
  branches := rfl

namespace Declared

theorem tidy (h : Declared P s) : Tidy P 0 s where
  settled := h.settled
  operators := h.operators
  current := h.current
  records r hr hsets := by
    rw [h.records r hr] at hsets
    cases hsets
  silent := h.silent
  branches key hkey := by
    rw [h.branches] at hkey
    cases hkey
  room q n _ _ := by
    rw [branchFields_of_get?_eq_none (by rw [h.branches]; rfl)]
    exact Nat.le_refl _

/-- Nothing is held where nothing was written. -/
theorem held (h : Declared P s) (hp : P p) : s.held p = none := by
  cases hscope : s.scopes.hidingScope? p with
  | some scope =>
    obtain ⟨n, hn, rfl, hlength, -⟩ := h.tidy.hidden hp hscope
    rw [held_hidden hscope, ← branchEntry?_eq (by omega), View.branchEntry?, if_neg (by omega),
      View.openBranch?, show s.view.branches = s.branches from rfl, h.branches]
    split <;> rfl
  | none =>
    have hentry : s.index.entry p = none := by
      refine Option.eq_none_iff_forall_ne_some.mpr fun v hv => ?_
      rw [h.current, Index.entry] at hv
      obtain ⟨r, hr, hsets, -⟩ := Index.exists_of_materialize_get? hv
      rw [h.records r hr] at hsets
      cases hsets
    rw [held_clear hscope, hentry]
    rfl

/-- A declaration that leaves the paths without secrets of their own. -/
theorem commitMarker (h : Declared P s) {scopes : Scopes} (hsilent : ∀ p, P p → scopes.liveAt p = false)
    {kind : Operator.Kind} (hkind : kind = .secret ∨ kind = .noise) (scope : Path) (marker : Value) :
    Declared P ({ s with scopes := scopes }.commitMarker scope kind marker).1 where
  settled := h.settled
  operators := h.operators
  current := indexCurrent_commit _ _
  records r hr := by
    rw [Store.commitMarker, commit_records] at hr
    rcases List.mem_append.mp hr with hr | hr
    · exact h.records r hr
    · obtain rfl := List.mem_singleton.mp hr
      rcases hkind with rfl | rfl <;> rfl
  silent := hsilent
  branches := h.branches

theorem declare (h : Declared P s) (hP : Path.Separate P) {d : Declaration} (hplain : d.scope.Plain)
    (hsilent : ∀ p text, P p → d ≠ .secret p text) (hticks : Ticks s (n + 1)) :
    Declared P (s.after d.call) ∧ Ticks (s.after d.call) n := by
  cases d with
  | secret scope text =>
    have hplain : scope.Plain := hplain
    have hafter : s.after (Declaration.secret scope text).call =
        ({ s with scopes := s.scopes.declareSecret scope text }.commitMarker scope .secret
          (.text declarationText)).1 := by
      have := declareSecret_store h.settled scope.key text
      rwa [Path.canonical_key hplain] at this
    rw [hafter]
    refine ⟨h.commitMarker (fun p hp => ?_) (.inl rfl) scope _,
      hticks.commit (t := { s with scopes := s.scopes.declareSecret scope text }) rfl rfl _⟩
    have hne : p.key ≠ scope.key := by
      intro hkey
      obtain rfl := Path.key_inj (hP.plain hp).clean hplain.clean hkey
      exact hsilent p text hp rfl
    rw [Scopes.liveAt, Scopes.liveSecret?, Scopes.declareSecret, Dict.get?_insert_of_ne _ hne]
    exact h.silent p hp
  | noise scope text =>
    have hplain : scope.Plain := hplain
    have hafter : s.after (Declaration.noise scope text).call =
        ({ s with scopes := s.scopes.declareNoise scope text }.commitMarker scope .noise
          (.text declarationText)).1 := by
      have := declareNoise_store h.settled scope.key text
      rwa [Path.canonical_key hplain] at this
    rw [hafter]
    have hsilent : ∀ p, P p → (s.scopes.declareNoise scope text).liveAt p = false := h.silent
    exact ⟨h.commitMarker hsilent (.inr rfl) scope _,
      hticks.commit (t := { s with scopes := s.scopes.declareNoise scope text }) rfl rfl _⟩

theorem run (h : Declared P s) (hP : Path.Separate P) {declarations : List Declaration}
    (hplain : ∀ d ∈ declarations, d.scope.Plain)
    (hsilent : ∀ p text, P p → .secret p text ∉ declarations)
    (hticks : Ticks s (declarations.length + n)) :
    Declared P (s.run (declarations.map Declaration.call)) ∧
      Ticks (s.run (declarations.map Declaration.call)) n := by
  induction declarations generalizing s with
  | nil =>
    rw [List.length_nil, Nat.zero_add] at hticks
    exact ⟨h, hticks⟩
  | cons d rest ih =>
    rw [List.length_cons, Nat.add_right_comm] at hticks
    obtain ⟨hnext, hticks⟩ := h.declare hP (hplain d List.mem_cons_self)
      (fun p text hp heq => hsilent p text hp (heq ▸ List.mem_cons_self)) hticks
    exact ih hnext (fun d hd => hplain d (List.mem_cons_of_mem _ hd))
      (fun p text hp hmem => hsilent p text hp (List.mem_cons_of_mem _ hmem)) hticks

end Declared

/-! ## Reads -/

section Reads

variable (hP : Path.Separate P) {declarations : List Declaration} {edits : List Edit}
  (hplain : ∀ d ∈ declarations, d.scope.Plain) (hsilent : ∀ p text, P p → .secret p text ∉ declarations)
  (hedits : ∀ e ∈ edits, P e.path) (hfits : (edits.map Edit.room).sum < 2 ^ 64)

include hP hplain hsilent hedits hfits

/-- **A run of edits reads as the last edit of each path**, whatever is declared before it. -/
theorem read_run {clock : Clock} (hclock : clock.Increasing (declarations.length + edits.length))
    (hp : P p) :
    ((empty clock).run (declarations.map Declaration.call ++ edits.map Edit.call)).read p.key =
      some (Edit.latest p none edits) := by
  have hticks : Ticks (empty clock) (declarations.length + edits.length) := ⟨hclock, fun _ hr => nomatch hr⟩
  obtain ⟨hdeclared, hticks⟩ := (declared_empty P clock).run hP hplain hsilent hticks
  obtain ⟨⟨more, htidy⟩, hheld⟩ := hdeclared.tidy.run hP hedits hticks (by omega)
  have hfound := hheld p hp
  rw [hdeclared.held hp] at hfound
  have hnone : ∀ target, (none : Option Value) ≠ some (.pointer target) := fun _ h => nomatch h
  have hdata := Edit.latest_ne_pointer hnone p edits
  rw [← hfound] at hdata
  rw [run, List.foldl_append, ← hfound]
  exact htidy.read hP hp hdata

/-- **Declarations do not change what is read.** Two stores are given the same edits, one with
declarations before them and one without, each by a clock of its own. -/
theorem read_transparent {clock clock' : Clock}
    (hclock : clock.Increasing (declarations.length + edits.length))
    (hclock' : clock'.Increasing edits.length) (hp : P p) :
    ∃ found,
      ((empty clock).run (declarations.map Declaration.call ++ edits.map Edit.call)).read p.key = some found ∧
        ((empty clock').run (edits.map Edit.call)).read p.key = some found := by
  have hwithout := @read_run P p hP [] edits (fun _ hd => nomatch hd)
    (fun _ _ _ hmem => nomatch hmem) hedits hfits clock'
    (show clock'.Increasing (0 + edits.length) by rwa [Nat.zero_add]) hp
  exact ⟨_, read_run hP hplain hsilent hedits hfits hclock hp, hwithout⟩

end Reads

/-- A value below a scope with a secret and a value beside it; the first is written anew, the second
removed. -/
theorem read_transparent_wallet :
    ∃ found,
      ((empty (.ticking 1000 1)).run
        ([Declaration.secret ⟨["wallet"]⟩ "k", .noise ⟨[]⟩ "n"].map Declaration.call ++
          [Edit.write ⟨["wallet", "balance"]⟩ (.int 1), .write ⟨["owner"]⟩ (.str "a"), .remove ⟨["owner"]⟩,
            .write ⟨["wallet", "balance"]⟩ (.int 2)].map Edit.call)).read "wallet.balance" = some found ∧
      ((empty (.ticking 1000 1)).run
        ([Edit.write ⟨["wallet", "balance"]⟩ (.int 1), .write ⟨["owner"]⟩ (.str "a"), .remove ⟨["owner"]⟩,
          .write ⟨["wallet", "balance"]⟩ (.int 2)].map Edit.call)).read "wallet.balance" = some found := by
  have hseparate : Path.Separate fun p => p ∈ [(⟨["wallet", "balance"]⟩ : Path), ⟨["owner"]⟩] := by
    have hplain : ∀ p ∈ [(⟨["wallet", "balance"]⟩ : Path), ⟨["owner"]⟩], p.Plain ∧ p.isRoot = false := by
      decide
    have hstarts : ∀ p ∈ [(⟨["wallet", "balance"]⟩ : Path), ⟨["owner"]⟩],
        ∀ q ∈ [(⟨["wallet", "balance"]⟩ : Path), ⟨["owner"]⟩], p.segments <+: q.segments → p = q := by
      decide
    exact ⟨fun hp => (hplain _ hp).1, fun hp => (hplain _ hp).2, fun hp hq => hstarts _ hp _ hq⟩
  refine read_transparent (p := ⟨["wallet", "balance"]⟩) hseparate ?_ ?_ ?_ ?_ ?_ ?_ (by simp)
  · intro d hd
    rcases List.mem_pair.mp hd with rfl | rfl
    · decide
    · decide
  · intro p text hp hmem
    rcases List.mem_pair.mp hmem with heq | heq
    · obtain ⟨rfl, -⟩ := Declaration.secret.inj heq
      revert hp
      decide
    · cases heq
  · intro e he
    simp only [List.mem_cons, List.not_mem_nil, or_false] at he
    rcases he with rfl | rfl | rfl | rfl <;> decide
  · decide
  · exact increasing_ticking (by decide)
  · exact increasing_ticking (by decide)

end Store

end PathLedger
