import PathLedger.Store.View

/-!
# Reads to a bounded depth

A read may start reads that start further reads. Where they are cut off at some depth, every read ends, and the ones
that are not cut off give what they give without the bound. So a read comes to a result exactly when some depth is
enough for it.

* `View.readWith` — reads to a bounded depth.
* `View.reading_of_readWith` — what a bounded read gives, the read gives.
* `View.reading_eq_some_iff` — **a read ends exactly when some depth is enough**, and then with the same result.
-/

namespace PathLedger

namespace Simulation

/-- What a run comes to, the runs of a row come to from some place on. -/
def eventually : Simulation Option (ReaderT Nat Option) where
  Holds x y := ∀ a, x = some a → ∃ n, ∀ k, n ≤ k → y.run k = some a
  result _ _ h := ⟨0, fun _ _ => h⟩
  next {_ _ x y f g} h hnext b hb := by
    obtain ⟨a, hx, hf⟩ := Option.bind_eq_some_iff.mp hb
    obtain ⟨n, hn⟩ := h a hx
    obtain ⟨n', hn'⟩ := hnext a b hf
    refine ⟨max n n', fun k hk => ?_⟩
    rw [ReaderT.run_bind, hn k (by omega)]
    exact hn' k (by omega)

/-- The run of a row at one place. -/
def place (k : Nat) : Simulation (ReaderT Nat Option) Option where
  Holds x y := x.run k = y
  result _ := rfl
  next {_ _ x y f g} h hnext := by
    rw [ReaderT.run_bind, h]
    exact congrArg (y >>= ·) (funext hnext)

end Simulation

namespace View

/-- Reads that start further reads to a bounded depth; no result at all where the depth is not enough. -/
def readWith (view : View) : Nat → Next Option
  | 0, _, _ => none
  | fuel + 1, p, budget => view.readStep (view.readWith fuel) p budget

/-- The reads to all depths, one behind the other. -/
def readRow (view : View) : Next (ReaderT Nat Option) := fun p budget fuel => view.readWith fuel p budget

variable (view : View) {p : Path} {budget : Nat} {found : Option Value}

/-- What a bounded read gives, the read gives. -/
theorem reading_of_readWith {fuel : Nat} (h : view.readWith fuel p budget = some found) :
    view.reading p budget = some found := by
  induction fuel generalizing p budget found with
  | zero => cases h
  | succ fuel ih =>
    rw [reading]
    exact view.readStep_related Simulation.outlasts (fun _ _ _ hnext => ih hnext) p budget found h

theorem read_of_readWith (fuel : Nat) (h : view.readWith fuel p maxHops = some found) : view.read p = some found :=
  view.reading_of_readWith h

/-- What a read gives, it gives to every depth from some on. -/
theorem readWith_of_reading (h : view.reading p budget = some found) :
    ∃ n, ∀ fuel, n ≤ fuel → view.readWith fuel p budget = some found := by
  refine reading.partial_correctness view
    (fun p budget found => ∃ n, ∀ fuel, n ≤ fuel → view.readWith fuel p budget = some found) ?_ p budget found h
  intro next hnext p budget found hstep
  -- One read uses finitely many results of further reads, so one depth is enough for all of them.
  have hrow : Simulation.eventually.Holds (view.readStep next p budget) (view.readStep view.readRow p budget) :=
    view.readStep_related _ (fun p budget a ha => hnext p budget a ha) p budget
  obtain ⟨n, hn⟩ := hrow found hstep
  refine ⟨n + 1, fun fuel hfuel => ?_⟩
  obtain ⟨fuel, rfl⟩ : ∃ k, fuel = k + 1 := ⟨fuel - 1, by omega⟩
  have hplace : (Simulation.place fuel).Holds (view.readStep view.readRow p budget)
      (view.readStep (view.readWith fuel) p budget) := view.readStep_related _ (fun _ _ => rfl) p budget
  rw [readWith, ← show _ = _ from hplace]
  exact hn fuel (by omega)

/-- **A read ends exactly when some depth is enough for it**, and then with the same result. -/
theorem reading_eq_some_iff :
    view.reading p budget = some found ↔ ∃ fuel, view.readWith fuel p budget = some found := by
  constructor
  · intro h
    obtain ⟨n, hn⟩ := view.readWith_of_reading h
    exact ⟨n, hn n (Nat.le_refl n)⟩
  · rintro ⟨fuel, h⟩
    exact view.reading_of_readWith h

end View

end PathLedger
