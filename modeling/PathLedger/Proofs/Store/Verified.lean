import PathLedger.Proofs.Store.Records
import PathLedger.Store.Inspect

/-!
# Stores that verify

A record reaches a ledger in one way only: sealed behind the last one. So a call leaves the records that were there
where they are, and the chain as it was: it verifies afterwards if it did before. A replay starts from an empty ledger,
so what it leaves verifies in any case, as far as it got.

* `Store.extends_stable` — **records that are there stay**, in their place.
* `Store.after_leads` — a call that brings in no records of another store is a row of changes, also when it is refused.
* `Store.replay_verified` — what a replay leaves verifies.
* `Store.ledger_verified` — **ledgers only grow, and verify in every store** into which none has been imported.
-/

namespace PathLedger.Store

variable {s : Store}

/-- **Records that are there stay**, in their place. -/
theorem extends_stable (records : List Record) : Stable fun s => records <+: s.ledger.records :=
  .of_append (P := fun l _ => records <+: l.records) (fun _ _ _ _ h => h.trans (List.prefix_append _ _))
    fun _ _ h => h

/-- A local call is a row of changes, also when it is refused. -/
theorem after_leads (s : Store) {c : Call} (hc : c.isLocal) : Leads (fun _ => True) s (s.after c) := by
  cases hi : s.meaning? c with
  | some i =>
    rw [after_of_meaning hi]
    exact s.perform_leads fun _ _ _ _ => trivial
  | none =>
    rcases meaning?_eq_none hi with ⟨snapshot, rfl⟩ | ⟨records, rfl⟩
    · cases hc
    · cases hc

/-- What a replay leaves verifies, also where a record was refused. -/
theorem replay_verified (s : Store) (records : List Record) : (s.replay records).store.verify = .ok () :=
  verified_stable.leads (s.cleared.replayRecords_leads records) rfl

/-- **Ledgers only grow, and verify.** A local call leaves the records in front as they were, and a ledger that verified
verifies; a replay leaves one that verifies whatever it was given; so in a store that calls other than imports lead to
the ledger verifies. Nothing is asked of the store or its clock, and a call may be refused. -/
theorem ledger_verified (s : Store) :
    (∀ c : Call, c.isLocal →
      s.ledger.records <+: (s.after c).ledger.records ∧ (s.verify = .ok () → (s.after c).verify = .ok ())) ∧
    (∀ records, (s.replay records).store.verify = .ok ()) ∧
    (Reached (fun c => ∀ snapshot, c ≠ .restore snapshot) s → s.verify = .ok ()) := by
  refine ⟨fun c hc => ⟨?_, fun h => ?_⟩, s.replay_verified, fun h => ?_⟩
  · exact (extends_stable s.ledger.records).leads (s.after_leads hc) (List.prefix_refl _)
  · exact verified_stable.leads (s.after_leads hc) h
  · induction h with
    | start clock => rfl
    | @call s _ c hc ih =>
      by_cases hlocal : c.isLocal
      · exact verified_stable.leads (s.after_leads hlocal) ih
      · cases c with
        | restore snapshot => exact absurd rfl (hc snapshot)
        | replay records => exact s.replay_verified records
        | _ => exact absurd rfl hlocal

/-- A record that can be done again, and behind it one that cannot: its user name breaks the naming rules. -/
def misnamed : List Record :=
  [⟨"a", none, .bool true, .bool true, "", "", "", 0⟩,
    ⟨"me", some .identity, .identity "no name", .identity "no name", "", "", "", 0⟩]

/-- What a replay left of them on a clock that stands still. -/
def halfway : Store := ((empty (.ticking 1000 0)).replay misnamed).store

/-- Only the first is done. -/
theorem replay_misnamed :
    ∃ f, (empty (.ticking 1000 0)).replay misnamed =
      ⟨((empty (.ticking 1000 0)).cleared.commitValue ⟨["a"]⟩ (.bool true) none).1, some (.error f)⟩ := by
  have hsettled : Settled (empty (.ticking 1000 0)).cleared := fun _ => rfl
  have hfirst := hsettled.done_put ⟨["a"]⟩ (.bool true) none
  have hreplay : (empty (.ticking 1000 0)).replay misnamed =
      ((empty (.ticking 1000 0)).cleared.commitValue ⟨["a"]⟩ (.bool true) none).1.replayRecords misnamed.tail := by
    rw [replay, misnamed, replayRecords, replayRecord]
    dsimp only
    rw [show Path.ofKey "a" = ⟨["a"]⟩ from rfl, hfirst]
    rfl
  exact ⟨_, hreplay⟩

theorem length_halfway : halfway.ledger.length = 1 := by
  obtain ⟨r, hrecords, -⟩ := (empty (.ticking 1000 0)).cleared.commitValue_records ⟨["a"]⟩ (.bool true) none
  obtain ⟨f, hreplay⟩ := replay_misnamed
  rw [halfway, hreplay, Ledger.length, hrecords]
  rfl

theorem ledger_verified_halfway :
    (∃ f, ((empty (.ticking 1000 0)).replay misnamed).result = some (.error f)) ∧ halfway.ledger.length = 1 ∧
      halfway.verify = .ok () ∧ halfway.ledger.records <+: (halfway.after (.remove "a")).ledger.records ∧
      (halfway.after (.remove "a")).verify = .ok () := by
  have hverified := (ledger_verified (empty (.ticking 1000 0))).2.1 misnamed
  obtain ⟨hgrown, hkept⟩ := (ledger_verified halfway).1 (.remove "a") rfl
  obtain ⟨f, hreplay⟩ := replay_misnamed
  exact ⟨⟨f, by rw [hreplay]⟩, length_halfway, hverified, hgrown, hkept hverified⟩

end PathLedger.Store
