import PathLedger.Proofs.Store.Declarations
import PathLedger.Proofs.Store.Transparency

/-!
# Hidden values do not show in the index

The ledger keeps hidden values in plain form, and the index is made anew from it after every call. Two runs
that differ in hidden values only still have one index: what hid a value keeps hiding it until a removal
takes back the scope and the record of the value together.

* `Action` — the calls of a run over plain paths.
* `AlikeFrom` — two rows of actions that differ in values only, written where a scope hides them.
* `Store.Orderly` — the stores that actions lead to.
* `Store.Twins` — two such stores that differ behind the declarations only.
* `Store.Twins.act`, `Store.Twins.overwrite` — **actions keep twins twins**.
* `Store.index_noninterference` — **runs that differ in hidden values have one index**.
-/

namespace PathLedger

/-! ## Actions -/

/-- A call over plain paths: a value written or a path removed, a secret or a noise declared. -/
inductive Action where
  | write (p : Path) (v : Value)
  | remove (p : Path)
  | secret (scope : Path) (text : String)
  | noise (scope : Path) (text : String)

namespace Action

def call : Action → Call
  | write p v => .write p.key v none
  | remove p => .remove p.key
  | secret scope text => .declareSecret scope.key text
  | noise scope text => .declareNoise scope.key text

/-- An action at a plain path; a declaration has a text. -/
def Plain : Action → Prop
  | write p _ => p.Plain
  | remove p => p.Plain
  | secret scope text => scope.Plain ∧ text ≠ ""
  | noise scope text => scope.Plain ∧ text ≠ ""

end Action

/-- Two rows of actions that differ only in values written where a scope hides them, in the store that the
actions before have led to. -/
inductive AlikeFrom : Store → List Action → List Action → Prop where
  | nil (s : Store) : AlikeFrom s [] []
  | same {s : Store} (a : Action) {as bs : List Action} (rest : AlikeFrom (s.after a.call) as bs) :
    AlikeFrom s (a :: as) (a :: bs)
  | hidden {s : Store} {p : Path} (v w : Value) {as bs : List Action}
    (hidden : (s.scopes.hidingScope? p).isSome)
    (rest : AlikeFrom (s.after (Action.write p v).call) as bs) :
    AlikeFrom s (.write p v :: as) (.write p w :: bs)

namespace Scopes

/-- A path that a removal uncovers lies at or below the removed one. -/
theorem uncovered_by_purgeUnder {s : Scopes} {target p : Path} (htarget : target.Clean) (hp : p.Clean)
    (hscope : (s.hidingScope? p).isSome) (hclear : (s.purgeUnder target).hidingScope? p = none) :
    Path.atOrUnder p.key target.key := by
  obtain ⟨top, htop⟩ := Option.isSome_iff_exists.mp hscope
  obtain ⟨n, hpos, hle, rfl, hlive, -⟩ := hidingScope?_eq_some_iff.mp htop
  have hlost := hidingScope?_eq_none_iff.mp hclear n hpos hle
  rw [liveAt_purgeUnder, hlive, Bool.and_true, Bool.not_eq_false'] at hlost
  cases hroot : target.isRoot with
  | true =>
    have hkey : target.key = "" := by
      obtain ⟨segments⟩ := target
      obtain rfl : segments = [] := by simpa [Path.isRoot] using hroot
      rfl
    rw [hkey]
    rfl
  | false =>
    have hbelow := (Path.atOrUnder_key htarget (hp.take n) hroot).mp hlost
    exact (Path.atOrUnder_key htarget hp hroot).mpr (hbelow.trans (List.take_prefix n p.segments))

end Scopes

namespace Store

variable {s t : Store} {p q : Path} {n : Nat}

/-! ## One run -/

/-- The stores that actions lead to. -/
structure Orderly (s : Store) : Prop where
  settled : Settled s
  operators : s.operators = .initial
  current : IndexCurrent s
  /-- What sets a key is at a plain path. -/
  records : ∀ r ∈ s.ledger.records, Index.setsKey r → ∃ p : Path, p.Plain ∧ r.path = p.key

theorem orderly_empty (clock : Clock) : Orderly (empty clock) where
  settled _ := rfl
  operators := rfl
  current := indexCurrent_empty clock
  records _ hr := nomatch hr

/-- The index behind the declarations. -/
def behind (s : Store) : Index := Index.uncovered s.ledger.records

/-- A commit takes one record into the index behind the declarations. -/
theorem commit_behind (hfresh : Fresh s) (d : Draft) :
    (s.commit d).1.behind = Index.absorb .empty s.behind (s.recordOf d) := by
  have hlast : ∀ r ∈ s.ledger.records, r.timestamp < (s.recordOf d).timestamp := hfresh
  exact Index.materialize_append hlast .empty

/-- What a write leaves at its path: the value where it is hidden, or else the form it is stored in. -/
def laid (s : Store) (p : Path) (v : Value) : Value :=
  if (s.scopes.hidingScope? p).isSome then v else s.storedForm p v none

theorem commitValue_behind (hfresh : Fresh s) (p : Path) (v : Value) :
    (s.commitValue p v none).1.behind = s.behind.insert p.key (s.laid p v) := by
  cases hscope : s.scopes.hidingScope? p with
  | none =>
    have hsets : Index.setsKey (s.recordOf ⟨p, none, v, s.storedForm p v none⟩) := rfl
    rw [commitValue_clear hscope, commit_behind hfresh,
      Index.absorb_setsKey hsets (Scopes.hidingScope?_empty _), laid, hscope]
    rfl
  | some scope =>
    have hframe := frame_writeBranch s scope p v
    have hfresh : Fresh (s.writeBranch scope p v) := by
      rw [Fresh, hframe.ledger, hframe.clock]
      exact hfresh
    have hsets : Index.setsKey ((s.writeBranch scope p v).recordOf ⟨p, none, v, v⟩) := rfl
    rw [commitValue_hidden hscope, commit_behind hfresh,
      Index.absorb_setsKey hsets (Scopes.hidingScope?_empty _), laid, hscope, behind, hframe.ledger]
    rfl

theorem removeSubtree_behind (hfresh : Fresh s) (target : Path) :
    (s.removeSubtree target).1.behind = s.behind.removeUnder target.key := by
  have hframe := frame_pruned s target
  have hfresh : Fresh (s.pruned target) := by
    rw [Fresh, hframe.ledger, hframe.clock]
    exact hfresh
  have hremoves : ((s.pruned target).recordOf ⟨target, some .remove, removalMarker, removalMarker⟩).operator =
      some .remove := rfl
  have hsets : ¬Index.setsKey
      ((s.pruned target).recordOf ⟨target, some .remove, removalMarker, removalMarker⟩) := by
    rw [Index.setsKey, hremoves]
    decide
  rw [removeSubtree_eq, commit_behind hfresh, Index.absorb_of_not_setsKey hsets, if_pos hremoves, behind,
    hframe.ledger]
  rfl

theorem commitMarker_behind (s : Store) (scope : Path) {kind : Operator.Kind}
    (hkind : kind = .secret ∨ kind = .noise) (marker : Value) :
    (s.commitMarker scope kind marker).1.behind = s.behind := by
  refine Index.materialize_append_declaration (r := s.recordOf ⟨scope, some kind, marker, marker⟩) ?_ _ _
  rcases hkind with rfl | rfl <;> rfl

namespace Orderly

variable (h : Orderly s)

include h

/-- A write at a plain path, the root among them, commits a value. -/
theorem after_write (hp : p.Plain) (v : Value) :
    s.after (Action.write p v).call = (s.commitValue p v none).1 := by
  cases hroot : p.isRoot with
  | false =>
    refine (write_plain h.settled hp hroot (fun leaf hleaf => ?_) v).1
    rw [h.operators]
    exact kindOf?_initial (Text.isWord_iff.mpr (hp leaf (List.mem_of_getLast? hleaf)))
  | true =>
    obtain ⟨segments⟩ := p
    obtain rfl : segments = [] := by simpa [Path.isRoot] using hroot
    exact congrArg Prod.fst (put_of_settled h.settled Path.root v none)

theorem after_secret (hp : p.Plain) (text : String) :
    s.after (Action.secret p text).call =
      ({ s with scopes := s.scopes.declareSecret p text }.commitMarker p .secret
        (.text declarationText)).1 := by
  have := declareSecret_store h.settled p.key text
  rwa [Path.canonical_key hp] at this

theorem after_noise (hp : p.Plain) (text : String) :
    s.after (Action.noise p text).call =
      ({ s with scopes := s.scopes.declareNoise p text }.commitMarker p .noise
        (.text declarationText)).1 := by
  have := declareNoise_store h.settled p.key text
  rwa [Path.canonical_key hp] at this

theorem write (hp : p.Plain) (v : Value) : Orderly (s.commitValue p v none).1 where
  settled := h.settled.of_derivations (commitValue_derivations s p v none)
  operators := (commitValue_operators s p v none).trans h.operators
  current := indexCurrent_stable.value p v none h.current
  records := by
    obtain ⟨r, hrecords, hpath, -⟩ := commitValue_records s p v none
    intro a ha hsets
    rw [hrecords] at ha
    rcases List.mem_append.mp ha with ha | ha
    · exact h.records a ha hsets
    · obtain rfl := List.mem_singleton.mp ha
      exact ⟨p, hp, hpath⟩

theorem remove (target : Path) : Orderly (s.removeSubtree target).1 where
  settled := by
    refine h.settled.of_derivations ?_
    rw [removeSubtree_eq, commit_derivations, (frame_pruned s target).derivations]
    exact h.settled.clearUnder target
  operators := by
    rw [removeSubtree_eq, commit_operators, (frame_pruned s target).operators]
    exact h.operators
  current := indexCurrent_stable.removal target h.current
  records r hr hsets := by
    rw [removeSubtree_eq, commit_records, (frame_pruned s target).ledger] at hr
    rcases List.mem_append.mp hr with hr | hr
    · exact h.records r hr hsets
    · obtain rfl := List.mem_singleton.mp hr
      cases hsets

theorem declare (scopes : Scopes) (scope : Path) {kind : Operator.Kind}
    (hkind : kind = .secret ∨ kind = .noise) (marker : Value) :
    Orderly ({ s with scopes := scopes }.commitMarker scope kind marker).1 where
  settled := h.settled
  operators := h.operators
  current := indexCurrent_commit _ _
  records r hr hsets := by
    rw [Store.commitMarker, commit_records] at hr
    rcases List.mem_append.mp hr with hr | hr
    · exact h.records r hr hsets
    · obtain rfl := List.mem_singleton.mp hr
      rcases hkind with rfl | rfl <;> cases hsets

/-- An action leaves the store orderly and takes one reading of the clock. -/
theorem act {a : Action} (ha : a.Plain) (hticks : Ticks s (n + 1)) :
    Orderly (s.after a.call) ∧ Ticks (s.after a.call) n := by
  cases a with
  | write p v =>
    rw [h.after_write ha]
    exact ⟨h.write ha v, hticks.commitValue p v none⟩
  | remove p =>
    have hp : p.Plain := ha
    rw [show (Action.remove p).call = (Edit.remove p).call from rfl, after_remove s hp]
    exact ⟨h.remove p, hticks.removeSubtree p⟩
  | secret scope text =>
    rw [h.after_secret ha.1]
    exact ⟨h.declare _ scope (.inl rfl) _,
      hticks.commit (t := { s with scopes := s.scopes.declareSecret scope text }) rfl rfl _⟩
  | noise scope text =>
    rw [h.after_noise ha.1]
    exact ⟨h.declare _ scope (.inr rfl) _,
      hticks.commit (t := { s with scopes := s.scopes.declareNoise scope text }) rfl rfl _⟩

end Orderly

/-! ## Two runs -/

/-- Two stores under the same declarations that differ behind them only: where a plain path is not hidden,
their records say the same. -/
structure Twins (s t : Store) : Prop where
  left : Orderly s
  right : Orderly t
  scopes : s.scopes = t.scopes
  clear : ∀ p : Path, p.Plain → s.scopes.hidingScope? p = none →
    s.behind.get? p.key = t.behind.get? p.key

theorem Twins.refl_empty (clock clock' : Clock) : Twins (empty clock) (empty clock') :=
  ⟨orderly_empty clock, orderly_empty clock', rfl, fun _ _ _ => rfl⟩

/-- Without records at plain paths, a key has nothing behind it. -/
theorem Orderly.behind_get? (h : Orderly s) {key : String} (hkey : ¬∃ p : Path, p.Plain ∧ key = p.key) :
    s.behind.get? key = none := by
  refine Option.eq_none_iff_forall_ne_some.mpr fun v hv => hkey ?_
  obtain ⟨r, hr, hsets, -, rfl, -⟩ := Index.exists_of_materialize_get? hv
  exact h.records r hr hsets

/-- **Twins have one index.** -/
theorem Twins.index (h : Twins s t) : s.index = t.index := by
  refine Dict.ext_of_get? fun key => ?_
  rw [h.left.current, h.right.current, Index.get?_materialize, Index.get?_materialize, ← h.scopes]
  split
  · rfl
  · rename_i hclear
    by_cases hkey : ∃ p : Path, p.Plain ∧ key = p.key
    · obtain ⟨p, hp, rfl⟩ := hkey
      rw [hp.ofKey_key] at hclear
      exact h.clear p hp (by simpa using hclear)
    · exact (h.left.behind_get? hkey).trans (h.right.behind_get? hkey).symm

namespace Twins

variable (h : Twins s t)

include h

/-- A value written where it is hidden may differ. -/
theorem overwrite (hp : p.Plain) (hhidden : (s.scopes.hidingScope? p).isSome) (hs : Fresh s) (ht : Fresh t)
    (v w : Value) : Twins (s.commitValue p v none).1 (t.commitValue p w none).1 where
  left := h.left.write hp v
  right := h.right.write hp w
  scopes := by rw [commitValue_scopes, commitValue_scopes, h.scopes]
  clear q hq hclear := by
    rw [commitValue_scopes] at hclear
    have hne : q.key ≠ p.key := by
      intro hkey
      rw [← Path.key_inj hq.clean hp.clean hkey, hclear] at hhidden
      cases hhidden
    rw [commitValue_behind hs, commitValue_behind ht, Dict.get?_insert_of_ne _ hne,
      Dict.get?_insert_of_ne _ hne, h.clear q hq hclear]

/-- What a write leaves depends on the declarations and on the value. -/
theorem laid_eq (p : Path) (v : Value) : s.laid p v = t.laid p v := by
  rw [laid, laid, storedForm, storedForm, h.scopes]

theorem write (hp : p.Plain) (hs : Fresh s) (ht : Fresh t) (v : Value) :
    Twins (s.commitValue p v none).1 (t.commitValue p v none).1 where
  left := h.left.write hp v
  right := h.right.write hp v
  scopes := by rw [commitValue_scopes, commitValue_scopes, h.scopes]
  clear q hq hclear := by
    rw [commitValue_scopes] at hclear
    rw [commitValue_behind hs, commitValue_behind ht, Index.get?_insert_eq, Index.get?_insert_eq,
      h.clear q hq hclear, h.laid_eq]

theorem remove (hp : p.Plain) (hs : Fresh s) (ht : Fresh t) :
    Twins (s.removeSubtree p).1 (t.removeSubtree p).1 where
  left := h.left.remove p
  right := h.right.remove p
  scopes := by rw [removeSubtree_scopes, removeSubtree_scopes, h.scopes]
  clear q hq hclear := by
    rw [removeSubtree_scopes] at hclear
    rw [removeSubtree_behind hs, removeSubtree_behind ht, Index.get?_removeUnder, Index.get?_removeUnder]
    split
    · rfl
    · rename_i hunder
      refine h.clear q hq (Option.eq_none_iff_forall_ne_some.mpr fun top htop => hunder ?_)
      exact Scopes.uncovered_by_purgeUnder hp.clean hq.clean (by rw [htop]; rfl) hclear

/-- Declarations under which no path comes to light. -/
theorem declare {scopes : Scopes}
    (hscopes : ∀ q, scopes.hidingScope? q = none → s.scopes.hidingScope? q = none) (scope : Path)
    {kind : Operator.Kind} (hkind : kind = .secret ∨ kind = .noise) (marker : Value) :
    Twins ({ s with scopes := scopes }.commitMarker scope kind marker).1
      ({ t with scopes := scopes }.commitMarker scope kind marker).1 where
  left := h.left.declare scopes scope hkind marker
  right := h.right.declare scopes scope hkind marker
  scopes := by rw [commitMarker, commitMarker, commit_scopes, commit_scopes]
  clear q hq hclear := by
    rw [commitMarker, commit_scopes] at hclear
    rw [commitMarker_behind _ _ hkind, commitMarker_behind _ _ hkind]
    exact h.clear q hq (hscopes q hclear)

/-- **The same action keeps twins twins.** -/
theorem act {a : Action} (ha : a.Plain) (hs : Fresh s) (ht : Fresh t) :
    Twins (s.after a.call) (t.after a.call) := by
  cases a with
  | write p v =>
    rw [h.left.after_write ha, h.right.after_write ha]
    exact h.write ha hs ht v
  | remove p =>
    have hp : p.Plain := ha
    rw [show (Action.remove p).call = (Edit.remove p).call from rfl, after_remove s hp, after_remove t hp]
    exact h.remove hp hs ht
  | secret scope text =>
    rw [h.left.after_secret ha.1, h.right.after_secret ha.1, ← h.scopes]
    refine h.declare (fun q hclear => ?_) scope (.inl rfl) _
    refine Option.eq_none_iff_forall_ne_some.mpr fun top htop => ?_
    exact ha.2 (Scopes.uncovered_by_declareSecret htop hclear).1
  | noise scope text =>
    rw [h.left.after_noise ha.1, h.right.after_noise ha.1, ← h.scopes]
    refine h.declare (fun q hclear => ?_) scope (.inr rfl) _
    rwa [Scopes.hidingScope?_declareNoise] at hclear

end Twins

theorem run_cons (s : Store) (c : Call) (calls : List Call) : s.run (c :: calls) = (s.after c).run calls := rfl

/-- Rows of actions that differ in hidden values lead twins to twins. -/
theorem Twins.run {as bs : List Action} (h : Twins s t) (halike : AlikeFrom s as bs)
    (hplain : ∀ a ∈ as, a.Plain) (hs : Ticks s as.length) (ht : Ticks t as.length) :
    Twins (s.run (as.map Action.call)) (t.run (bs.map Action.call)) := by
  induction halike generalizing t with
  | nil s => exact h
  | @same s a as bs _ ih =>
    rw [List.length_cons] at hs ht
    have ha : a.Plain := hplain a List.mem_cons_self
    have hrest : ∀ b ∈ as, b.Plain := fun b hb => hplain b (List.mem_cons_of_mem _ hb)
    have hnext := h.act ha hs.fresh ht.fresh
    rw [List.map_cons, List.map_cons, run_cons, run_cons]
    exact ih hnext hrest (h.left.act ha hs).2 (h.right.act ha ht).2
  | @hidden s p v w as bs hhidden _ ih =>
    rw [List.length_cons] at hs ht
    have hv : (Action.write p v).Plain := hplain _ List.mem_cons_self
    have hw : (Action.write p w).Plain := hv
    have hrest : ∀ b ∈ as, b.Plain := fun b hb => hplain b (List.mem_cons_of_mem _ hb)
    have hnext : Twins (s.after (Action.write p v).call) (t.after (Action.write p w).call) := by
      rw [h.left.after_write hv, h.right.after_write hw]
      exact h.overwrite hv hhidden hs.fresh ht.fresh v w
    rw [List.map_cons, List.map_cons, run_cons, run_cons]
    exact ih hnext hrest (h.left.act hv hs).2 (h.right.act hw ht).2

/-- **Runs that differ in hidden values have one index.** Each run has a clock of its own. -/
theorem index_noninterference {clock clock' : Clock} {as bs : List Action}
    (halike : AlikeFrom (empty clock) as bs) (hplain : ∀ a ∈ as, a.Plain)
    (hclock : clock.Increasing as.length) (hclock' : clock'.Increasing as.length) :
    ((empty clock).run (as.map Action.call)).index = ((empty clock').run (bs.map Action.call)).index := by
  have hs := ticks_empty hclock
  have ht := ticks_empty hclock'
  exact ((Twins.refl_empty clock clock').run halike hplain hs ht).index

/-- A value below a secret scope, a value beside it, and a removal of the first. -/
theorem index_noninterference_wallet :
    ((empty (.ticking 1000 1)).run
      ([Action.secret ⟨["wallet"]⟩ "k", .write ⟨["wallet", "balance"]⟩ (.ofJson (.int 1)),
        .write ⟨["owner"]⟩ (.ofJson (.str "a")), .remove ⟨["wallet", "balance"]⟩].map Action.call)).index =
    ((empty (.ticking 5000 2)).run
      ([Action.secret ⟨["wallet"]⟩ "k", .write ⟨["wallet", "balance"]⟩ (.ofJson (.str "b")),
        .write ⟨["owner"]⟩ (.ofJson (.str "a")), .remove ⟨["wallet", "balance"]⟩].map Action.call)).index := by
  have hhidden : (((empty (.ticking 1000 1)).after (Action.secret ⟨["wallet"]⟩ "k").call).scopes.hidingScope?
      ⟨["wallet", "balance"]⟩).isSome := by
    have hscopes := (oneSecret (.ticking 1000 1) "wallet" "k").scopes
    change (((empty (.ticking 1000 1)).declareSecret "wallet" "k").store.scopes.hidingScope? _).isSome
    rw [hscopes]
    decide
  have hticking : ∀ j < 4, ∀ i < j,
      (Clock.ticking 1000 1).readings (0 + i) < (Clock.ticking 1000 1).readings (0 + j) := by decide
  have hticking' : ∀ j < 4, ∀ i < j,
      (Clock.ticking 5000 2).readings (0 + i) < (Clock.ticking 5000 2).readings (0 + j) := by decide
  refine index_noninterference (.same _ (.hidden _ _ hhidden (.same _ (.same _ (.nil _))))) ?_
    (fun i j hij hj => hticking j hj i hij) (fun i j hij hj => hticking' j hj i hij)
  intro a ha
  simp only [List.mem_cons, List.not_mem_nil, or_false] at ha
  rcases ha with rfl | rfl | rfl | rfl
  · exact ⟨by decide, by decide⟩
  · exact (by decide : Path.Plain ⟨["wallet", "balance"]⟩)
  · exact (by decide : Path.Plain ⟨["owner"]⟩)
  · exact (by decide : Path.Plain ⟨["wallet", "balance"]⟩)

end Store

end PathLedger
