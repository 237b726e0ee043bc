import PathLedger.Proofs.Operator.Registry
import PathLedger.Proofs.Store.Runs

/-!
# Stores made from snapshots

A snapshot holds the records, the declarations, the branches and the operators of a store. The index is the fold of the
records, and a registry that grew from the initial one is not changed by being put over it, so nothing is lost but
the derivations and the clock.

* `Store.Reached.closed` — **every registry that is reached is closed**: it overlays the initial one unchanged.
* `Store.restore_snapshot` — what restoring the snapshot of a store makes of another.
* `Store.ofSnapshot_snapshot` — **a store made from the snapshot of a store** reads as that store, and has its snapshot.
-/

namespace PathLedger.Store

variable {s : Store}

/-- What an instruction causes keeps registries closed. -/
theorem Causes.closed {i : Operator.Instruction} {c : Change} (h : Causes s i c) (hs : s.operators.Closed) {t : Store}
    (ht : t.operators.Closed) : (t.change c).operators.Closed := by
  cases c with
  | operators r =>
    cases h with
    | define hdefine => exact hs.define hdefine
  | _ =>
    rw [KeepsOperators.change fun _ => Change.noConfusion]
    exact ht

/-- **Every registry that is reached is closed.** -/
theorem Reached.closed {allowed : Call → Prop} (h : Reached allowed s) : s.operators.Closed := by
  induction h with
  | start clock => exact Operator.Registry.closed_initial
  | @call s _ c _ ih =>
    cases hc : s.meaning? c with
    | some i =>
      have hcaused : Leads (fun c => ∃ j, Causes s j c) s (s.perform i).store :=
        s.perform_leads fun j _ _ hc => ⟨j, hc⟩
      rw [after_of_meaning hc]
      exact hcaused.keeps (P := fun u => u.operators.Closed) (fun _ _ ⟨_, hc⟩ hu => hc.closed ih hu) ih
    | none =>
      rcases meaning?_eq_none hc with ⟨snapshot, rfl⟩ | ⟨records, rfl⟩
      · exact Operator.Registry.closed_overlay snapshot.operators
      · have hoperators : (s.after (.replay records)).operators = s.operators :=
          (s.cleared.replayRecords_leads records).operators
        rw [hoperators]
        exact ih

/-- Restoring the snapshot of a store leaves out its derivations and its clock only. -/
theorem restore_snapshot (hindex : IndexCurrent s) (hclosed : s.operators.Closed) (t : Store) :
    t.restore s.snapshot = { s with derivations := .empty, clock := t.clock } := by
  unfold restore snapshot reindexed
  dsimp only
  rw [hclosed.overlay, ← hindex]

/-- **A store made from the snapshot of a store** has its index, branches, declarations and operators, the same
snapshot, and reads the same at every path. -/
theorem ofSnapshot_snapshot (hs : Reached (fun _ => True) s) (clock : Clock) :
    (ofSnapshot s.snapshot clock).index = s.index ∧
      (ofSnapshot s.snapshot clock).branches = s.branches ∧
      (ofSnapshot s.snapshot clock).scopes = s.scopes ∧
      (ofSnapshot s.snapshot clock).operators = s.operators ∧
      (ofSnapshot s.snapshot clock).snapshot = s.snapshot ∧
      ∀ path, (ofSnapshot s.snapshot clock).read path = s.read path := by
  rw [ofSnapshot, restore_snapshot hs.indexCurrent hs.closed]
  exact ⟨rfl, rfl, rfl, rfl, rfl, fun _ => rfl⟩

/-- A store with an imported secret and a binding of its own, in which the imported one was dropped. -/
def imported : Store :=
  ((empty (.ticking 1000 1)).after
    (.restore ⟨[], .ofList [("wallet", "k")], .empty, .empty, .ofList [("+", .remove)]⟩)).after
      (.defineOperator "!!" "remove")

theorem ofSnapshot_snapshot_imported :
    Reached (fun _ => True) (imported.after (.write "wallet.balance" (.ofJson (.int 1)) none)) ∧
      (ofSnapshot (imported.after (.write "wallet.balance" (.ofJson (.int 1)) none)).snapshot (.ticking 5 1)).snapshot =
        (imported.after (.write "wallet.balance" (.ofJson (.int 1)) none)).snapshot ∧
      (ofSnapshot imported.snapshot (.ticking 5 1)).operators.kindOf? "!!" = some .remove ∧
      (ofSnapshot imported.snapshot (.ticking 5 1)).operators.kindOf? "+" = none := by
  have hs : Reached (fun _ => True) imported :=
    (Reached.call (.start _) (.restore _) trivial).call (.defineOperator "!!" "remove") trivial
  have hwritten := hs.call (.write "wallet.balance" (.ofJson (.int 1)) none) trivial
  obtain ⟨-, -, -, -, hsnapshot, -⟩ := ofSnapshot_snapshot hwritten (.ticking 5 1)
  obtain ⟨-, -, -, hoperators, -, -⟩ := ofSnapshot_snapshot hs (.ticking 5 1)
  refine ⟨hwritten, hsnapshot, ?_, ?_⟩
  · rw [hoperators]
    decide
  · rw [hoperators]
    decide

end PathLedger.Store
