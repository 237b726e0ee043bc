import PathLedger.Proofs.Store.Commit
import PathLedger.Proofs.Store.Runs

/-!
# What a secret keeps out of the index

A value below a scope with a secret goes into the sealed branch of the scope. The index is made anew from
the keys of the records, so whether it holds such a value is decided on paths cut from keys, while the
commit decided on the segments of the written path. The two agree exactly for scopes whose key spells
their path.

* `Store.Hides` — the index holds nothing at or below a key.
* `Store.Reached.hides` — **a scope whose key is a spelling is hidden in every store that is reached**.
* `Store.leaking` — two calls after which another scope is not.
* `Store.hides_iff_spelled` — **the scopes that are always hidden**.
-/

namespace PathLedger

namespace Store

/-- The index holds nothing at or below a key. -/
def Hides (s : Store) (key : String) : Prop :=
  ∀ k v, s.index.get? k = some v → Path.atOrUnder k key = false

/-- **A scope whose key is a spelling is hidden.** -/
theorem Reached.hides {allowed : Call → Prop} {s : Store} (h : Reached allowed s) {key : String}
    (hne : key ≠ "") (hspelled : Path.Spelled key) (hlive : (s.scopes.liveSecret? key).isSome) :
    s.Hides key := by
  intro k v hk
  rw [h.indexCurrent] at hk
  have hclear := Index.materialize_not_hidden hk
  cases hunder : Path.atOrUnder k key with
  | false => rfl
  | true =>
    have hscope : s.scopes.liveAt (Path.ofKey key) := by
      rw [Scopes.liveAt, hspelled]
      exact hlive
    have hhidden := Scopes.hidingScope?_isSome_of_prefix (hspelled.isRoot hne) hscope
      (Path.ofKey_under hne hunder)
    rw [hclear] at hhidden
    cases hhidden

/-! ## Scopes that are not hidden -/

/-- A secret at a scope and a user name at the same scope, in a new store. -/
def leaking (clock : Clock) (raw : String) : Store :=
  ((empty clock).after (.declareSecret raw "k")).after (.declareIdentity raw "abc")

theorem leaking_reached (clock : Clock) (raw : String) :
    Reached (fun c => c.isLocal = true) (leaking clock raw) := by
  have hstart : Reached (fun c => c.isLocal = true) (empty clock) := .start clock
  exact (hstart.call (.declareSecret raw "k") rfl).call (.declareIdentity raw "abc") rfl

section Leaking

variable (clock : Clock) (raw : String)

theorem leaking_parts :
    (leaking clock raw).scopes = Scopes.empty.declareSecret (Path.canonical raw) "k" ∧
    ∃ r r', (leaking clock raw).ledger.records = [r, r'] ∧ r.operator = some .secret ∧
      r'.operator = some .identity ∧ r'.path = (Path.canonical raw).key := by
  have hsettled : Settled (empty clock) := fun _ => rfl
  have hfirst := declareSecret_store hsettled raw "k"
  have hname : Username.normalize "abc" = .ok "abc" := by decide
  have hsecond := declareIdentity_store (s := ((empty clock).declareSecret raw "k").store)
    (by rw [hfirst]; exact hsettled.of_derivations rfl) raw hname
  obtain ⟨r, hr, hpath, hoperator, -⟩ := commitValue_records ((empty clock).declareSecret raw "k").store
    (Path.canonical raw) (.identity "abc") (some .identity)
  have hleaking : leaking clock raw = (((empty clock).declareSecret raw "k").store.commitValue
    (Path.canonical raw) (.identity "abc") (some .identity)).1 := hsecond
  rw [hleaking]
  constructor
  · rw [commitValue_scopes, hfirst]
    rfl
  · rw [hr, hfirst]
    exact ⟨_, r, rfl, rfl, hoperator, hpath⟩

theorem leaking_live : (leaking clock raw).scopes.liveAt (Path.canonical raw) := by
  rw [(leaking_parts clock raw).1, Scopes.liveAt, Scopes.liveSecret?, Scopes.declareSecret,
    Dict.get?_insert_self]
  rfl

/-- A scope whose key is no spelling is shown. -/
theorem leaking_shows (hspelled : ¬Path.Spelled (Path.canonical raw).key) :
    ¬(leaking clock raw).Hides (Path.canonical raw).key := by
  obtain ⟨hscopes, r, r', hrecords, hr, hr', hpath⟩ := leaking_parts clock raw
  intro hides
  have hclear : (leaking clock raw).scopes.hidingScope? (Path.ofKey r'.path) = none := by
    rw [Scopes.hidingScope?_eq_none_iff, hscopes, hpath]
    intro n _ _
    rw [Scopes.liveAt, Scopes.liveSecret?, Scopes.declareSecret, Dict.get?_insert_of_ne]
    · rfl
    · intro heq
      exact hspelled (Path.spelled_of_take heq)
  have hkey : ((leaking clock raw).index.get? r'.path).isSome := by
    rw [(leaking_reached clock raw).indexCurrent]
    refine Index.materialize_get?_of_mem (by rw [hrecords]; simp) ?_ ?_ hclear
    · intro a ha
      rw [hrecords] at ha
      rcases List.mem_pair.mp ha with rfl | rfl
      · rw [hr]
        decide
      · rw [hr']
        decide
    · rw [Index.setsKey, hr']
  obtain ⟨v, hv⟩ := Option.isSome_iff_exists.mp hkey
  have := hides _ v hv
  rw [hpath, Path.atOrUnder] at this
  simp at this

end Leaking

/-- **The scopes that are always hidden** are those whose key is a spelling. -/
theorem hides_iff_spelled (raw : String) (hroot : (Path.canonical raw).isRoot = false) :
    (∀ s, Reached (fun c => c.isLocal = true) s → s.scopes.liveAt (Path.canonical raw) →
      s.Hides (Path.canonical raw).key) ↔ Path.Spelled (Path.canonical raw).key := by
  constructor
  · intro hides
    by_cases hspelled : Path.Spelled (Path.canonical raw).key
    · exact hspelled
    · have := hides _ (leaking_reached default raw) (leaking_live default raw)
      exact absurd this (leaking_shows default raw hspelled)
  · intro hspelled s hs hlive
    exact hs.hides (Path.key_ne_empty Path.canonical_segments hroot) hspelled hlive

/-- A scope of one plain name is always hidden. -/
theorem hides_wallet :
    (Path.canonical "wallet").isRoot = false ∧ Path.Spelled (Path.canonical "wallet").key ∧
    ∀ s, Reached (fun c => c.isLocal = true) s → s.scopes.liveAt (Path.canonical "wallet") →
      s.Hides (Path.canonical "wallet").key := by
  have hroot : (Path.canonical "wallet").isRoot = false := by decide
  have hspelled : Path.Spelled (Path.canonical "wallet").key := by decide
  exact ⟨hroot, hspelled, (hides_iff_spelled "wallet" hroot).mpr hspelled⟩

/-- A quoted name that starts with a dot: its key has an empty piece, and the scope is shown. -/
theorem quoted_dot_shows :
    ∃ s, Reached (fun c => c.isLocal = true) s ∧ s.scopes.liveAt (Path.canonical "a[\".b\"]") ∧
      ¬s.Hides (Path.canonical "a[\".b\"]").key := by
  have hspelled : ¬Path.Spelled (Path.canonical "a[\".b\"]").key := by decide
  exact ⟨_, leaking_reached default _, leaking_live default _, leaking_shows default _ hspelled⟩

end Store

end PathLedger
