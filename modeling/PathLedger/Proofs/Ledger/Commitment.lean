import Mathlib.Data.List.Forall2
import PathLedger.Proofs.Digest.Collision
import PathLedger.Proofs.Ledger.Chain
import PathLedger.Proofs.Value.Printed

/-!
# The last hash commits to the history

The text that a record's hash is taken of shows all parts of the record but its time, as far as numbers are told by
their texts, and among them the hash of the record before. So two rows of records that check and end in the same hash
agree from the last record back to the first, or else two different texts among those hashed have one digest.

* `Record.Alike` — records that agree on what their hashes are taken of.
* `Record.alike_of_contentText` — **the text that is hashed shows the record**.
* `Ledger.alike_of_check` — rows of records that check and end in one hash.
* `Ledger.lastHash_commits` — **the last hash commits to the whole ledger**.
-/

namespace PathLedger

namespace Record

/-- Records that agree on everything but the time, as far as numbers are told by their texts. -/
structure Alike (r r' : Record) : Prop where
  path : r.path = r'.path
  operator : r.operator = r'.operator
  expression : r.expression.Alike r'.expression
  value : r.value.Alike r'.value
  effectiveSecret : r.effectiveSecret = r'.effectiveSecret
  hash : r.hash = r'.hash
  prevHash : r.prevHash = r'.prevHash

theorem Alike.refl (r : Record) : r.Alike r :=
  ⟨rfl, rfl, (Value.alike_iff _ _).mpr rfl, (Value.alike_iff _ _).mpr rfl, rfl, rfl, rfl⟩

/-- Records that are alike to the same one are alike. -/
theorem Alike.trans {a b c : Record} (h : a.Alike b) (h' : b.Alike c) : a.Alike c where
  path := h.path.trans h'.path
  operator := h.operator.trans h'.operator
  expression := (Value.alike_iff _ _).mpr
    (((Value.alike_iff _ _).mp h.expression).trans ((Value.alike_iff _ _).mp h'.expression))
  value := (Value.alike_iff _ _).mpr (((Value.alike_iff _ _).mp h.value).trans ((Value.alike_iff _ _).mp h'.value))
  effectiveSecret := h.effectiveSecret.trans h'.effectiveSecret
  hash := h.hash.trans h'.hash
  prevHash := h.prevHash.trans h'.prevHash

theorem alike_trans {a b c : List Record} (h : List.Forall₂ Alike a b) (h' : List.Forall₂ Alike b c) :
    List.Forall₂ Alike a c := by
  induction h generalizing c with
  | nil => exact h'
  | cons hr _ ih =>
    cases h' with
    | cons hr' hrest => exact .cons (hr.trans hr') (ih hrest)

theorem map_hash_of_alike {a b : List Record} (h : List.Forall₂ Alike a b) : a.map hash = b.map hash := by
  induction h with
  | nil => rfl
  | cons hr _ ih => rw [List.map_cons, List.map_cons, hr.hash, ih]

/-- The document of an operator shows which it is, and whether there is one. -/
theorem operator_of_alike {r r' : Record} (h : Json.Alike r.operatorJson r'.operatorJson) :
    r.operator = r'.operator := by
  unfold operatorJson at h
  cases hr : r.operator with
  | none =>
    cases hr' : r'.operator with
    | none => rfl
    | some k' =>
      rw [hr, hr'] at h
      cases h.2.1
  | some k =>
    cases hr' : r'.operator with
    | none =>
      rw [hr, hr'] at h
      cases h.1
    | some k' =>
      rw [hr, hr'] at h
      have hname : k.name = k'.name := Json.alike_str.mp h
      have hkind := congrArg Operator.Kind.named? hname
      rwa [Operator.Kind.named?_name, Operator.Kind.named?_name] at hkind

/-- **The text that is hashed shows the record**, but for its time and its own hash. -/
theorem alike_of_contentText {r r' : Record} (htext : r.contentText = r'.contentText) (hhash : r.hash = r'.hash) :
    r.Alike r' := by
  have halike := Json.alike_of_compact htext
  unfold content at halike
  simp only [Json.alike_obj, Json.fieldsAlike_cons, Json.alike_str, true_and] at halike
  obtain ⟨hpath, hoperator, hexpression, hvalue, hsecret, hprev, -⟩ := halike
  exact ⟨hpath, operator_of_alike hoperator, Value.alike_of_tagged _ _ hexpression, Value.alike_of_tagged _ _ hvalue,
    hsecret, hhash, hprev⟩

end Record

namespace Ledger

/-- The texts that are hashed for the records of a ledger. -/
def hashed (l : Ledger) : List String := l.records.map Record.contentText

theorem check_cons {prev : String} {position : Nat} {r : Record} {rest : List Record}
    (h : check prev position (r :: rest) = .ok ()) :
    r.prevHash = prev ∧ r.contentHash = r.hash ∧ check r.hash (position + 1) rest = .ok () := by
  rw [check] at h
  split at h
  · cases h
  · rename_i hlink
    split at h
    · cases h
    · rename_i hcontent
      exact ⟨by simpa using hlink, by simpa using hcontent, h⟩

/-- The front of a row of records that checks. -/
theorem check_take {prev : String} {position : Nat} {records : List Record}
    (h : check prev position records = .ok ()) (n : Nat) : check prev position (records.take n) = .ok () := by
  induction records generalizing prev position n with
  | nil => rwa [List.take_nil]
  | cons r rest ih =>
    cases n with
    | zero => rfl
    | succ n =>
      obtain ⟨hlink, hcontent, hrest⟩ := check_cons h
      rw [List.take_succ_cons, check, hlink, hcontent]
      simpa using ih hrest n

/-- Rows of records that check and end in one hash agree, and so do the hashes that they are chained to. -/
theorem alike_of_check {records records' : List Record} (hlength : records.length = records'.length)
    {prev prev' : String} {position : Nat} (h : check prev position records = .ok ())
    (h' : check prev' position records' = .ok ())
    (hlast : (records.getLast?.map Record.hash).getD prev = (records'.getLast?.map Record.hash).getD prev') :
    prev = prev' ∧ List.Forall₂ Record.Alike records records' ∨
      Blake3.Collision (records.map Record.contentText ++ records'.map Record.contentText) := by
  induction records generalizing records' prev prev' position with
  | nil =>
    obtain rfl := List.length_eq_zero_iff.mp hlength.symm
    exact .inl ⟨hlast, .nil⟩
  | cons r rest ih =>
    obtain ⟨r', rest', rfl⟩ := List.exists_cons_of_length_eq_add_one hlength.symm
    obtain ⟨hlink, hcontent, hrest⟩ := check_cons h
    obtain ⟨hlink', hcontent', hrest'⟩ := check_cons h'
    rw [last_hash_cons, last_hash_cons] at hlast
    obtain ⟨hhash, hall⟩ | hcollision := ih (Nat.succ.inj hlength) hrest hrest' hlast
    · by_cases htext : r.contentText = r'.contentText
      · have halike := Record.alike_of_contentText htext hhash
        exact .inl ⟨by rw [← hlink, ← hlink', halike.prevHash], .cons halike hall⟩
      · -- The hashes agree although the texts do not.
        have hdigest : digestText r.contentText = digestText r'.contentText :=
          hcontent.trans (hhash.trans hcontent'.symm)
        refine .inr ⟨r.contentText, ?_, r'.contentText, ?_, htext, hash_eq_of_digestText hdigest⟩
        · simp
        · simp
    · refine .inr (hcollision.mono ?_)
      intro text htext
      simp only [List.map_cons, List.mem_append, List.mem_cons] at htext ⊢
      tauto

/-- **The last hash commits to the whole ledger.** Two ledgers of equal length that verify and end in one hash agree
at every position on path, operator, secret and hashes, and on expression and value as far as numbers are told by their
texts; or else two different texts among those hashed for them have one digest. -/
theorem lastHash_commits (l l' : Ledger) (hlength : l.length = l'.length) (h : l.verify = .ok ())
    (h' : l'.verify = .ok ()) (hlast : l.lastHash = l'.lastHash) :
    List.Forall₂ Record.Alike l.records l'.records ∨ Blake3.Collision (l.hashed ++ l'.hashed) :=
  (alike_of_check hlength h h' hlast).imp And.right id

/-- A ledger with one record of a number. -/
def single (x : Binary64) (time : UInt64) : Ledger :=
  (empty.append ⟨⟨["a"]⟩, none, .number x, .number x⟩ "" time).1

theorem single_verify (x : Binary64) (time : UInt64) : (single x time).verify = .ok () := verify_append rfl _ _ _

/-- That ledger with the number once more in a second record. -/
def double (x : Binary64) (time : UInt64) : Ledger :=
  ((single x time).append ⟨⟨["b"]⟩, none, .number x, .number x⟩ "" (time + 1)).1

theorem double_verify (x : Binary64) (time : UInt64) : (double x time).verify = .ok () :=
  verify_append (single_verify x time) _ _ _

/-- Neither a non-number nor an infinity has a text, and no time is hashed. -/
theorem double_hashes (time time' : UInt64) :
    (double .infinity time').records.map Record.hash = (double .nan time).records.map Record.hash := by
  have hfixed : (double .infinity 0).records.map Record.hash = (double .nan 0).records.map Record.hash := by
    decide +kernel
  exact hfixed

theorem double_lastHash : (double .nan 0).lastHash = (double .infinity 5).lastHash :=
  congrArg (fun hashes => hashes.getLast?.getD "") (double_hashes 0 5).symm

theorem lastHash_commits_double :
    (double .nan 0).length = (double .infinity 5).length ∧ (double .nan 0).verify = .ok () ∧
      (double .infinity 5).verify = .ok () ∧ (double .nan 0).lastHash = (double .infinity 5).lastHash ∧
      double .nan 0 ≠ double .infinity 5 ∧
      (List.Forall₂ Record.Alike (double .nan 0).records (double .infinity 5).records ∨
        Blake3.Collision ((double .nan 0).hashed ++ (double .infinity 5).hashed)) := by
  have hcommits := lastHash_commits (double .nan 0) (double .infinity 5) rfl (double_verify _ _) (double_verify _ _)
    double_lastHash
  refine ⟨rfl, double_verify _ _, double_verify _ _, double_lastHash, fun h => ?_, hcommits⟩
  have htimes := congrArg (fun l => l.records.map Record.timestamp) h
  exact absurd htimes (by decide)

end Ledger

end PathLedger
