import PathLedger.Proofs.Journal.Saves
import PathLedger.Proofs.Ledger.Commitment

/-!
# Ledgers that verify lose their times at most

A save keeps stored records when one hash is the same. In ledgers that verify this hash commits to the records in front
of it. So the kept records are those of the ledger that is saved but for their times, and are so after any row of saves:
what is loaded differs from what was saved last in times at most, and in numbers that print alike.

* `Journal.keep_alike` — **one save** of a ledger that verifies.
* `Journal.kept_alike` — a row of saves, by induction from one.
* `Journal.load_of_verified` — **what is loaded is what was saved last but for times**.
-/

namespace PathLedger.Journal

/-- The texts that are hashed for the records of snapshots. -/
def hashed (history : List Snapshot) : List String := history.flatMap fun s => s.ledger.map Record.contentText

/-- Kept records end in the hash that the ledger has at their place. -/
theorem last_hash_of_continues {kept ledger : List Record} (h : Continues kept ledger) :
    kept.getLast?.map Record.hash = (ledger.take kept.length).getLast?.map Record.hash := by
  obtain ⟨-, hhash⟩ := h
  rcases List.eq_nil_or_concat kept with rfl | ⟨front, last, rfl⟩
  · rfl
  · obtain ⟨r, hr, hsame⟩ := hhash last (by simp)
    have hne : (front.concat last).length ≠ 0 := by simp
    rw [List.getLast?_take, if_neg hne, hr, Option.some_or, Option.map_some, hsame]
    simp

/-- **One save of a ledger that verifies**, where the records kept before are alike to those of one that does: so are
those kept now, or two different texts that were hashed have one digest. -/
theorem keep_alike {records stored ledger : List Record} (halike : List.Forall₂ Record.Alike records stored)
    (hstored : Ledger.check "" 0 stored = .ok ()) (hledger : Ledger.check "" 0 ledger = .ok ()) :
    List.Forall₂ Record.Alike (keep records ledger) ledger ∨
      Blake3.Collision (stored.map Record.contentText ++ ledger.map Record.contentText) := by
  rw [keep]
  split
  · rename_i hc
    have hlength : stored.length = (ledger.take records.length).length := by
      rw [List.length_take_of_le hc.1, halike.length_eq]
    have hlast : stored.getLast?.map Record.hash = (ledger.take records.length).getLast?.map Record.hash := by
      rw [← last_hash_of_continues hc, ← List.getLast?_map, ← List.getLast?_map, Record.map_hash_of_alike halike]
    obtain ⟨-, hfront⟩ | hcollision :=
      Ledger.alike_of_check hlength hstored (Ledger.check_take hledger _) (congrArg (·.getD "") hlast)
    · have hall : List.Forall₂ Record.Alike (records ++ ledger.drop records.length)
          (ledger.take records.length ++ ledger.drop records.length) :=
        List.rel_append (Record.alike_trans halike hfront) (List.forall₂_same.mpr fun r _ => .refl r)
      rw [List.take_append_drop] at hall
      exact .inl hall
    · have hfront := List.map_subset Record.contentText (List.take_subset records.length ledger)
      exact .inr (hcollision.mono (List.append_subset.mpr
        ⟨List.subset_append_left _ _, List.subset_append_of_subset_right _ hfront⟩))
  · exact .inl (List.forall₂_same.mpr fun r _ => .refl r)

/-- A row of saves of ledgers that verify. -/
theorem kept_alike {records stored : List Record} (halike : List.Forall₂ Record.Alike records stored)
    (hstored : Ledger.check "" 0 stored = .ok ()) {history : List Snapshot} {last : Snapshot}
    (h : ∀ s ∈ history ++ [last], Ledger.check "" 0 s.ledger = .ok ()) :
    List.Forall₂ Record.Alike (keep (kept records history) last.ledger) last.ledger ∨
      Blake3.Collision (stored.map Record.contentText ++ hashed (history ++ [last])) := by
  induction history generalizing records stored with
  | nil =>
    refine (keep_alike halike hstored (h last (by simp))).imp id fun hcollision => ?_
    simpa [hashed] using hcollision
  | cons s rest ih =>
    have hs := h s (by simp)
    obtain hkept | hcollision := keep_alike halike hstored hs
    · refine (ih hkept hs fun t ht => h t (List.mem_cons_of_mem _ ht)).imp id fun hcollision => hcollision.mono ?_
      exact List.subset_append_right _ _
    · refine .inr (hcollision.mono ?_)
      simp [hashed, ← List.append_assoc]

/-- **What is loaded is what was saved last, but for the times of its records**, when all the ledgers that were saved
verify: or else two different texts among those hashed for them have one digest. -/
theorem load_of_verified {history : List Snapshot} {last : Snapshot} (h : ∀ s ∈ history, s.Storable)
    (hlast : last.Storable) (hverified : ∀ s ∈ history ++ [last], (Ledger.mk s.ledger).verify = .ok ()) :
    (∃ j records, saves .empty (history ++ [last]) = .ok j ∧ j.load = .ok { last with ledger := records } ∧
      List.Forall₂ Record.Alike records last.ledger) ∨ Blake3.Collision (hashed (history ++ [last])) := by
  refine (kept_alike .nil rfl hverified).imp (fun halike => ?_) id
  exact ⟨_, _, saves_kept h last, load_kept h hlast, halike⟩

end PathLedger.Journal
