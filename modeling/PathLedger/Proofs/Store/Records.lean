import PathLedger.Proofs.Ledger.Chain
import PathLedger.Proofs.Store.Transparency

/-!
# The records of a store

Every change puts at most one record at the end of the ledger, sealed behind the last one at the next reading of the
clock.

* `Store.Stable.of_append` — what appended records and readings taken keep, every change keeps.
* `Store.verified_stable` — **ledgers that verify go on doing so**.
* `Ledger.Stamped` — records that were made at readings of a clock, one after another.
* `Ledger.Stamped.increasing` — **under a clock that runs forward records lie in the order of time**.
-/

namespace PathLedger

/-! ## Records in the order of time -/

/-- The records were made at readings of a clock, each at a later one than the record before. -/
structure Ledger.Stamped (start : Clock) (l : Ledger) (clock : Clock) : Prop where
  readings : clock.readings = start.readings
  started : start.taken ≤ clock.taken
  taken : ∀ r ∈ l.records, ∃ i, start.taken ≤ i ∧ i < clock.taken ∧ r.timestamp = start.readings i
  ordered : l.records.Pairwise fun a b => ∃ i j, start.taken ≤ i ∧ i < j ∧ j < clock.taken ∧
    a.timestamp = start.readings i ∧ b.timestamp = start.readings j

namespace Ledger.Stamped

variable {start clock : Clock} {l : Ledger}

theorem empty (start : Clock) : Stamped start .empty start :=
  ⟨rfl, Nat.le_refl _, fun _ hr => (nomatch hr), List.Pairwise.nil⟩

theorem advance (h : Stamped start l clock) : Stamped start l clock.advance where
  readings := h.readings
  started := Nat.le_succ_of_le h.started
  taken r hr := by
    obtain ⟨i, hstart, hi, htime⟩ := h.taken r hr
    exact ⟨i, hstart, Nat.lt_succ_of_lt hi, htime⟩
  ordered := h.ordered.imp fun ⟨i, j, hstart, hij, hj, htimes⟩ => ⟨i, j, hstart, hij, Nat.lt_succ_of_lt hj, htimes⟩

theorem append (h : Stamped start l clock) (d : Draft) (secret : String) :
    Stamped start (l.append d secret clock.now).1 clock.advance where
  readings := h.readings
  started := Nat.le_succ_of_le h.started
  taken r hr := by
    rcases List.mem_append.mp hr with hr | hr
    · exact h.advance.taken r hr
    · obtain rfl := List.mem_singleton.mp hr
      exact ⟨clock.taken, h.started, Nat.lt_succ_self _, congrFun h.readings _⟩
  ordered := by
    refine List.pairwise_append.mpr ⟨h.advance.ordered, List.pairwise_singleton _ _, ?_⟩
    intro a ha b hb
    obtain rfl := List.mem_singleton.mp hb
    obtain ⟨i, hstart, hi, htime⟩ := h.taken a ha
    exact ⟨i, clock.taken, hstart, hi, Nat.lt_succ_self _, htime, congrFun h.readings _⟩

/-- **Under a clock that runs forward records lie in the order of time.** -/
theorem increasing (h : Stamped start l clock) (hclock : start.Increasing (clock.taken - start.taken)) :
    l.records.Pairwise fun a b => a.timestamp < b.timestamp := by
  refine h.ordered.imp fun {a b} ⟨i, j, hstart, hij, hj, ha, hb⟩ => ?_
  have hlt := hclock (i - start.taken) (j - start.taken) (by omega) (by omega)
  rw [ha, hb]
  rwa [Nat.add_sub_cancel' hstart, Nat.add_sub_cancel' (by omega)] at hlt

end Ledger.Stamped

namespace Store

/-! ## What every change keeps -/

/-- What appended records and readings taken keep, every change keeps. -/
theorem Stable.of_append {P : Ledger → Clock → Prop}
    (happend : ∀ l clock d secret, P l clock → P (l.append d secret clock.now).1 clock.advance)
    (hadvance : ∀ l clock, P l clock → P l clock.advance) : Stable fun s => P s.ledger s.clock where
  value {s} p v operator h := by
    unfold commitValue
    split
    · rename_i scope _
      have hframe := frame_writeBranch s scope p v
      refine happend _ _ _ _ ?_
      rw [hframe.ledger, hframe.clock]
      exact h
    · exact happend _ _ _ _ h
  secret _ _ h := happend _ _ _ _ h
  noise _ _ h := happend _ _ _ _ h
  removal {s} target h := by
    have hframe := frame_pruned s target
    refine happend _ _ _ _ ?_
    show P (s.pruned target).ledger (s.pruned target).clock
    rw [hframe.ledger, hframe.clock]
    exact h
  register _ _ _ _ _ h := hadvance _ _ h
  touch _ h := hadvance _ _ h
  operators _ h := h

/-- **Ledgers that verify go on doing so.** -/
theorem verified_stable : Stable fun s => s.ledger.verify = .ok () :=
  .of_append (P := fun l _ => l.verify = .ok ()) (fun _ _ d secret h => Ledger.verify_append h d secret _)
    fun _ _ h => h

theorem stamped_stable (start : Clock) : Stable fun s => s.ledger.Stamped start s.clock :=
  .of_append (fun _ _ d secret h => h.append d secret) fun _ _ h => h.advance

end Store

end PathLedger
