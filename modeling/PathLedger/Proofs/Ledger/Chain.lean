import PathLedger.Ledger.Basic

/-!
# Chains that check

A record is sealed behind the hash of the last one, with the hash of its own content. So a ledger that verifies still
does with one more record at its end.

* `Ledger.check_append` — a row of records that checks, with one that fits behind it.
* `Ledger.verify_append` — **a ledger that verifies, with a draft sealed at its end**.
-/

namespace PathLedger.Ledger

/-- The last hash of a row behind a record; that of the record itself when the row is empty. -/
theorem last_hash_cons (a : Record) (rest : List Record) (prev : String) :
    ((a :: rest).getLast?.map Record.hash).getD prev = (rest.getLast?.map Record.hash).getD a.hash := by
  rw [List.getLast?_cons]
  cases rest.getLast? <;> rfl

/-- A row of records checks with one more behind it that names the last hash and has its own. -/
theorem check_append {prev : String} {position : Nat} {records : List Record} {r : Record}
    (h : check prev position records = .ok ()) (hprev : r.prevHash = (records.getLast?.map Record.hash).getD prev)
    (hhash : r.contentHash = r.hash) : check prev position (records ++ [r]) = .ok () := by
  induction records generalizing prev position with
  | nil =>
    have hlink : r.prevHash = prev := hprev
    rw [List.nil_append, check, hlink, hhash]
    simp [check]
  | cons a rest ih =>
    have hlast := hprev.trans (last_hash_cons a rest prev)
    rw [check] at h
    rw [List.cons_append, check]
    split at h
    · cases h
    · rename_i hlink
      split at h
      · cases h
      · rename_i hcontent
        rw [if_neg hlink, if_neg hcontent]
        exact ih h hlast

/-- **A ledger that verifies, with a draft sealed at its end, verifies.** -/
theorem verify_append {l : Ledger} (h : l.verify = .ok ()) (d : Draft) (secret : String) (time : UInt64) :
    (l.append d secret time).1.verify = .ok () :=
  check_append h rfl rfl

end PathLedger.Ledger
