import PathLedger.Proofs.Index.Uncovered
import PathLedger.Proofs.Store.Declarations
import PathLedger.Proofs.Store.PlainKeys

/-!
# What a removal takes along

A removal goes through the declarations and the formulas by their keys, through the branches by the paths of their
scopes and the names below them, and through the index by a record that the next fold meets last. Where all keys are
plain these come to one thing: what lies at or below the removed path, segment by segment.

* `Path.Covers` — a key that lies at or below a path.
* `Store.Cut` — of a table, exactly the keys at or below a path are gone.
* `Store.Removed` — **exactly a subtree is gone** from every part of a store.
* `Store.removed_removeSubtree` — a removal does that, where keys are plain and its record is the latest.
* `Store.remove_removes` — **every removal after calls over plain paths** succeeds and removes exactly its subtree.
-/

namespace PathLedger

/-- A key lies at or below a path. -/
def Path.Covers (p : Path) (key : String) : Prop := p.segments <+: (ofKey key).segments

theorem Path.isRoot_of_lt {p : Path} {n : Nat} (h : n < p.length) : p.isRoot = false := by
  rw [isRoot, List.isEmpty_eq_false_iff, ← List.length_pos_iff]
  exact Nat.lt_of_le_of_lt (Nat.zero_le n) h

theorem Path.not_prefix_take_of_lt {p : Path} {n : Nat} (h : n < p.length) : ¬p.segments <+: (p.take n).segments := by
  intro hprefix
  have hle := hprefix.length_le
  rw [take, List.length_take] at hle
  rw [length] at h
  omega

/-- For plain keys, lying at or below a plain path is the same for keys and segments, the root included. -/
theorem Path.PlainKey.atOrUnder_iff {key : String} (h : PlainKey key) {p : Path} (hp : p.Plain) :
    atOrUnder key p.key = true ↔ p.Covers key := by
  have hkey := atOrUnder_key_iff hp.clean h.ofKey.clean
  rwa [h.spelled] at hkey

namespace Store

variable {s : Store} {p : Path}

/-! ## Tables -/

/-- Of a table, exactly the keys at or below a path are gone. -/
structure Cut {α : Type} (p : Path) (before after : String → Option α) : Prop where
  gone : ∀ key, p.Covers key → after key = none
  kept : ∀ key, ¬p.Covers key → after key = before key

/-- A table with plain keys is cut by going through its keys. -/
theorem cut_of_atOrUnder {α : Type} {before after : String → Option α} (hp : p.Plain)
    (hplain : ∀ key, (before key).isSome → Path.PlainKey key)
    (hafter : ∀ key, after key = if Path.atOrUnder key p.key then none else before key) : Cut p before after := by
  have hkey (key : String) : before key = none ∨ (Path.atOrUnder key p.key = true ↔ p.Covers key) := by
    cases hbefore : before key with
    | none => exact .inl rfl
    | some a => exact .inr ((hplain key (by rw [hbefore]; rfl)).atOrUnder_iff hp)
  constructor
  · intro key hcovers
    rw [hafter]
    rcases hkey key with hnone | hiff
    · rw [hnone, ite_self]
    · rw [if_pos (hiff.mpr hcovers)]
  · intro key hcovers
    rw [hafter]
    rcases hkey key with hnone | hiff
    · rw [hnone, ite_self]
    · rw [if_neg (mt hiff.mp hcovers)]

/-- Exactly the subtree at a path is gone from every part of a store. -/
structure Removed (s t : Store) (p : Path) : Prop where
  index : Cut p s.index.get? t.index.get?
  secrets : Cut p s.scopes.secrets.get? t.scopes.secrets.get?
  noises : Cut p s.scopes.noises.get? t.scopes.noises.get?
  derivations : Cut p s.derivations.get? t.derivations.get?
  /-- No branch of a removed scope is left. -/
  branches : ∀ key, p.Covers key → t.branches.get? key = none
  /-- The branches of scopes beside the path are the same sealed values. -/
  beside : ∀ key, ¬p.Covers key → ¬(Path.ofKey key).segments <+: p.segments → t.branches.get? key = s.branches.get? key
  /-- A branch above the path that opens is left without what it kept at or below the path, and with everything that
  is neither above nor below it. -/
  opened : ∀ n < p.length, ∀ v, s.view.openBranch? (p.take n) = some v →
    ∃ v', t.view.openBranch? (p.take n) = some v' ∧
      (∀ more, Value.lookupAt ((p.drop n).segments ++ more) v' = none) ∧
      ∀ names, Value.Apart (p.drop n).segments names → Value.lookupAt names v' = Value.lookupAt names v
  /-- A branch above the path that does not open is left alone. -/
  shut : ∀ n < p.length, s.view.openBranch? (p.take n) = none →
    t.branches.get? (p.take n).key = s.branches.get? (p.take n).key

/-! ## A removal from a store with plain keys -/

section Plain

variable (h : PlainKeys s) (hp : p.Plain)

include h hp

/-- Declarations at or below the path hid nothing outside of it, so taking them back changes the index there only. -/
theorem get?_index_removeSubtree (hcurrent : IndexCurrent s) (hfresh : Fresh s) (key : String) :
    (s.removeSubtree p).1.index.get? key = if Path.atOrUnder key p.key then none else s.index.get? key := by
  rw [index_removeSubtree hfresh, Index.get?_removeUnder]
  split
  · rfl
  · rename_i hkept
    rw [hcurrent, Index.get?_materialize, Index.get?_materialize s.ledger.records s.scopes]
    cases hbehind : (Index.uncovered s.ledger.records).get? key with
    | none => rw [ite_self, ite_self]
    | some v =>
      obtain ⟨r, hr, -, -, rfl, -⟩ := Index.exists_of_materialize_get? hbehind
      have hplain := h.records r hr
      have hroot : p.isRoot = false := Bool.eq_false_iff.mpr fun hroot => hkept (Path.atOrUnder_of_isRoot hroot _)
      have hagrees := s.scopes.purgeUnder_agreesAlong hp.clean hroot hplain.ofKey.clean
        (mt (hplain.atOrUnder_iff hp).mpr hkept)
      rw [hagrees.hidingScope?]

omit hp in
theorem get?_branches_removeSubtree {key : String} (hkey : Path.Spelled key) :
    (s.removeSubtree p).1.branches.get? key = (pruneBranch p (s.purged p) key).branches.get? key := by
  rw [removeSubtree_eq, commit_branches]
  exact get?_pruneBranches (s := s.purged p) (fun k hk => (h.branches k hk).spelled) hkey p

omit h in
/-- Above the path the declarations stay, so a branch there opens as before. -/
theorem openBranch?_purged {n : Nat} (hn : n < p.length) :
    (s.purged p).view.openBranch? (p.take n) = s.view.openBranch? (p.take n) := by
  have hagrees := s.scopes.purgeUnder_agreesAlong hp.clean (Path.isRoot_of_lt hn) (hp.clean.take n)
    (Path.not_prefix_take_of_lt hn)
  exact openBranch?_congr hagrees.effectiveSecret rfl

/-- A branch above the path loses what it keeps at the path. -/
theorem openBranch?_removeSubtree {n : Nat} (hn : n < p.length) :
    (s.removeSubtree p).1.view.openBranch? (p.take n) =
      (s.view.openBranch? (p.take n)).map (Value.cut (p.drop n).segments) := by
  have hpruned : (s.pruned p).view.openBranch? (p.take n) = _ :=
    openBranch?_pruneBranches (s := s.purged p) (fun k hk => (h.branches k hk).spelled) hp.clean
      (Path.isRoot_of_lt hn) (hp.clean.take n) (Path.not_prefix_take_of_lt hn)
  have habove : p.startsWith (p.take n) := by
    rw [Path.startsWith, List.isPrefixOf_iff_prefix]
    exact List.take_prefix n p.segments
  rw [habove, if_pos rfl, openBranch?_purged hp hn, Path.length_take (Nat.le_of_lt hn)] at hpruned
  rw [removeSubtree_eq, ← hpruned]
  exact openBranch?_congr (by rw [commit_scopes]) (by rw [commit_branches])

/-- A branch above the path that does not open is left alone. -/
theorem get?_branches_of_shut {n : Nat} (hn : n < p.length) (hshut : s.view.openBranch? (p.take n) = none) :
    (s.removeSubtree p).1.branches.get? (p.take n).key = s.branches.get? (p.take n).key := by
  rw [← openBranch?_purged hp hn] at hshut
  rw [get?_branches_removeSubtree h (hp.clean.take n).spelled,
    pruneBranch_eq hp.clean (Path.isRoot_of_lt hn) (hp.clean.take n) (Path.not_prefix_take_of_lt hn),
    removeFromBranch_of_openBranch?_eq_none hshut, ite_self]
  rfl

/-- **A removal removes exactly its subtree**, where keys are plain and its record is the latest. -/
theorem removed_removeSubtree (hcurrent : IndexCurrent s) (hfresh : Fresh s) :
    Removed s (s.removeSubtree p).1 p where
  index := by
    refine cut_of_atOrUnder hp (fun key hkey => ?_) (get?_index_removeSubtree h hp hcurrent hfresh)
    obtain ⟨v, hv⟩ := Option.isSome_iff_exists.mp hkey
    rw [hcurrent] at hv
    obtain ⟨r, hr, -, -, rfl, -⟩ := Index.exists_of_materialize_get? hv
    exact h.records r hr
  secrets := by
    rw [removeSubtree_scopes]
    exact cut_of_atOrUnder hp h.secrets (s.scopes.secrets_purgeUnder p)
  noises := by
    rw [removeSubtree_scopes]
    exact cut_of_atOrUnder hp h.noises (s.scopes.noises_purgeUnder p)
  derivations := by
    rw [removeSubtree_eq, commit_derivations, (frame_pruned s p).derivations]
    exact cut_of_atOrUnder hp h.targets (s.derivations.get?_clearUnder p)
  branches key hcovers := by
    rw [← Option.not_isSome_iff_eq_none, ← Dict.mem_keys_iff]
    intro hmem
    have hkey := (h.removeSubtree hp).branches key hmem
    rw [Dict.mem_keys_iff, get?_branches_removeSubtree h hkey.spelled,
      get?_pruneBranch_of_under ((hkey.atOrUnder_iff hp).mpr hcovers)] at hmem
    cases hmem
  beside key hcovers habove := by
    by_cases hmem : key ∈ s.branches.keys
    · have hkey := h.branches key hmem
      have hroot : p.isRoot = false := by
        refine Bool.eq_false_iff.mpr fun hroot => hcovers ?_
        exact (hkey.atOrUnder_iff hp).mp (Path.atOrUnder_of_isRoot hroot key)
      have hstep := pruneBranch_eq (s := s.purged p) hp.clean hroot hkey.ofKey.clean hcovers
      have hbeside : p.startsWith (Path.ofKey key) = false := by
        rwa [Bool.eq_false_iff, ne_eq, Path.startsWith, List.isPrefixOf_iff_prefix]
      rw [hkey.spelled, hbeside, if_neg (by decide)] at hstep
      rw [get?_branches_removeSubtree h hkey.spelled, hstep]
      rfl
    · have hafter : key ∉ (s.removeSubtree p).1.branches.keys := fun hafter =>
        hmem (mem_keys_pruneBranches (s := s.purged p) hafter).1
      rw [Dict.mem_keys_iff, Option.not_isSome_iff_eq_none] at hmem hafter
      rw [hmem, hafter]
  opened n hn v hopen := by
    refine ⟨v.cut (p.drop n).segments, ?_, fun more => ?_, fun names hnames => ?_⟩
    · rw [openBranch?_removeSubtree h hp hn, hopen, Option.map_some]
    · exact Value.lookupAt_cut (Path.drop_ne_nil hn) more v
    · exact Value.lookupAt_cut_of_apart hnames v
  shut n hn hshut := get?_branches_of_shut h hp hn hshut

end Plain

/-- **Every removal after calls over plain paths** succeeds and removes exactly its subtree, when the next reading of
the clock is later than every record. -/
theorem remove_removes (hs : ReachedOverPlain s) (hfresh : Fresh s) (hp : p.Plain) :
    (∃ r, (s.remove p.key).result = some (.ok r)) ∧ Removed s (s.remove p.key).store p := by
  have hremove : (s.remove p.key).store = (s.removeSubtree p).1 := after_remove s hp
  rw [hremove]
  exact ⟨⟨_, rfl⟩, removed_removeSubtree hs.plainKeys hp hs.reached.indexCurrent hfresh⟩

/-! ## A removal below a secret -/

theorem sheltered_overPlain (clock : Clock) : ReachedOverPlain (sheltered clock) := by
  have hoperators := (oneSecret clock "wallet" "k").operators
  have hsecret : OverPlain (empty clock) (.declareSecret "wallet" "k") := by
    intro i hi
    cases hi
    exact (by decide : (Path.canonical "wallet").Plain)
  refine (ReachedOverPlain.call (.start clock) hsecret).call (c := .write "wallet.balance" _ none) fun i hi => ?_
  have hset : Operator.classify ((empty clock).after (.declareSecret "wallet" "k")).operators
      (Path.parse "wallet.balance") (.ofJson (.int 1)) none =
        .ok (.set ⟨["wallet", "balance"]⟩ (.ofJson (.int 1))) :=
    classify_plain (p := ⟨["wallet", "balance"]⟩) (by decide) (by decide)
      (by rw [show ((empty clock).after (.declareSecret "wallet" "k")).operators = _ from hoperators]; decide) _
  obtain rfl := Except.ok.inj (hset.symm.trans (Option.some.inj hi))
  exact (by decide : Path.Plain ⟨["wallet", "balance"]⟩)

theorem sheltered_fresh : Fresh (sheltered (.ticking 1000 1)) := by
  have hstart : Ticks (empty (.ticking 1000 1)) 3 := ticks_empty (increasing_ticking (by decide))
  have hdeclared : Ticks ((empty (.ticking 1000 1)).after (.declareSecret "wallet" "k")) 2 :=
    hstart.declareSecret (fun _ => rfl) "wallet" "k"
  rw [sheltered_eq]
  exact (hdeclared.commitValue _ _ none).fresh

/-- The branch of the secret opens to the value below it. -/
theorem sheltered_opens (clock : Clock) : (sheltered clock).view.openBranch? ⟨["wallet"]⟩ =
    some (.object [("balance", .ofJson (.int 1))]) := by
  have hdeclared : OneSecret ((empty clock).after (.declareSecret "wallet" "k")) ⟨["wallet"]⟩ "k" :=
    oneSecret clock "wallet" "k"
  rw [sheltered_eq]
  generalize (empty clock).after (.declareSecret "wallet" "k") = s at hdeclared
  have hscope : s.scopes.hidingScope? ⟨["wallet", "balance"]⟩ = some ⟨["wallet"]⟩ := by
    rw [hdeclared.scopes]
    decide
  have hfields : s.fieldsWith ⟨["wallet"]⟩ ⟨["wallet", "balance"]⟩ (.ofJson (.int 1)) =
      [("balance", .ofJson (.int 1))] := by
    rw [fieldsWith, branchFields_of_get?_eq_none (by rw [hdeclared.branches]; rfl)]
    rfl
  have hfits : SealFits s ⟨["wallet", "balance"]⟩ (.ofJson (.int 1)) := by
    rw [SealFits, hscope]
    dsimp only
    rw [hfields]
    decide
  rw [openBranch?_commitValue hscope (Value.ofJson_ordered _) hfits none, hfields]

/-- The path of a value below a secret is removed: the branch of the secret holds the value before. -/
theorem remove_removes_sheltered :
    (sheltered (.ticking 1000 1)).view.openBranch? ⟨["wallet"]⟩ = some (.object [("balance", .ofJson (.int 1))]) ∧
      (∃ r, ((sheltered (.ticking 1000 1)).remove (Path.key ⟨["wallet", "balance"]⟩)).result = some (.ok r)) ∧
      Removed (sheltered (.ticking 1000 1))
        ((sheltered (.ticking 1000 1)).remove (Path.key ⟨["wallet", "balance"]⟩)).store ⟨["wallet", "balance"]⟩ :=
  ⟨sheltered_opens _, remove_removes (sheltered_overPlain _) sheltered_fresh (by decide)⟩

end Store

end PathLedger
