import Mathlib.Data.List.Induction
import Mathlib.Data.List.Nodup
import PathLedger.Proofs.Index.Uncovered

/-!
# The latest record counts

What a key holds is settled by one record: the latest of those that set the key or remove it. Records are compared by
their time, then by their hash, then by their place in the ledger, so that one of them is always the latest.

* `Index.concerns` — the records that take part in what a key holds.
* `Index.Precedes` — the order of records with their places.
* `Index.Decides` — a record that comes behind all others which concern a key.
* `Index.get?_foldl_absorb` — after a fold, a key holds what the last record that concerns it left.
* `Index.get?_materialize_append_of_not_concerns` — a record more leaves the keys alone that it does not concern.
* `Index.pairwise_placed` — the records that the fold takes in, with their places, in strictly increasing order.
* `Index.latest_counts` — **a key holds the value of the record that decides it**, and so the order in which records
  with different stamps are listed does not matter.
-/

namespace PathLedger

/-- No scope at or above a path has a secret, the root aside, when none hides it. -/
theorem Scopes.hidingScope?_eq_none_iff_startsWith {s : Scopes} {p : Path} :
    s.hidingScope? p = none ↔
      ∀ scope : Path, scope.isRoot = false → p.startsWith scope → s.liveSecret? scope.key = none := by
  constructor
  · intro hnone scope hroot hstarts
    have hprefix : scope.segments <+: p.segments := List.isPrefixOf_iff_prefix.mp hstarts
    cases hsecret : s.liveSecret? scope.key with
    | none => rfl
    | some secret =>
      have hlive : s.liveAt scope := by rw [liveAt, hsecret]; rfl
      have := hidingScope?_isSome_of_prefix hroot hlive hprefix
      rw [hnone] at this
      cases this
  · intro h
    rw [hidingScope?_eq_none_iff]
    intro n hpos hle
    have hstarts : p.startsWith (p.take n) := List.isPrefixOf_iff_prefix.mpr (List.take_prefix n p.segments)
    rw [liveAt, h (p.take n) (take_isRoot hpos hle) hstarts]
    rfl

namespace Index

/-! ## Records that concern a key -/

/-- Whether a record takes part in what a key holds: it sets the key, or it removes a path at or above it. -/
def concerns (key : String) (r : Record) : Bool :=
  if r.operator = some .remove then Path.atOrUnder key r.path else setsKey r && r.path == key

/-- What a record leaves at a key that it concerns. -/
def left? (r : Record) : Option Value := if setsKey r then some r.value else none

theorem setsKey_ne_remove {r : Record} (h : setsKey r) : r.operator ≠ some .remove := by
  intro hremove
  rw [setsKey, hremove] at h
  cases h

/-- A record that concerns a key settles it. -/
theorem get?_absorb_of_concerns {key : String} {r : Record} (h : concerns key r) (index : Index) :
    (absorb .empty index r).get? key = left? r := by
  unfold concerns at h
  by_cases hsets : setsKey r
  · rw [if_neg (setsKey_ne_remove hsets), hsets, Bool.true_and, beq_iff_eq] at h
    rw [absorb_setsKey hsets (Scopes.hidingScope?_empty _), get?_insert_eq, if_pos h.symm, left?, if_pos hsets]
  · rw [absorb_of_not_setsKey hsets, left?, if_neg hsets]
    split at h
    · rename_i hremove
      rw [if_pos hremove, get?_removeUnder, if_pos h]
    · simp [hsets] at h

/-- Any other leaves it as it was. -/
theorem get?_absorb_of_not_concerns {key : String} {r : Record} (h : ¬concerns key r) (index : Index) :
    (absorb .empty index r).get? key = index.get? key := by
  unfold concerns at h
  by_cases hsets : setsKey r
  · rw [if_neg (setsKey_ne_remove hsets), hsets, Bool.true_and, beq_iff_eq] at h
    rw [absorb_setsKey hsets (Scopes.hidingScope?_empty _), Dict.get?_insert_of_ne _ (Ne.symm h)]
  · rw [absorb_of_not_setsKey hsets]
    split
    · rename_i hremove
      rw [if_pos hremove] at h
      rw [get?_removeUnder, if_neg h]
    · rfl

/-- **After a fold, a key holds what the last record that concerns it left.** -/
theorem get?_foldl_absorb (key : String) (rows : List Record) :
    (rows.foldl (absorb .empty) .empty).get? key = (rows.filter (concerns key)).getLast?.bind left? := by
  -- The last row is taken off, since the fold ends with it.
  induction rows using List.reverseRecOn with
  | nil => rfl
  | append_singleton rows r ih =>
    rw [List.foldl_append, List.foldl_cons, List.foldl_nil, List.filter_append]
    by_cases h : concerns key r
    · rw [get?_absorb_of_concerns h, List.filter_cons_of_pos h, List.filter_nil, List.getLast?_concat]
      rfl
    · rw [get?_absorb_of_not_concerns h, ih, List.filter_cons_of_neg h, List.filter_nil, List.append_nil]

/-- **A record that does not concern a key leaves it alone**, wherever its time puts it among the others. -/
theorem get?_materialize_append_of_not_concerns {key : String} {r : Record} (h : ¬concerns key r)
    (records : List Record) (scopes : Scopes) :
    (materialize (records ++ [r]) scopes).get? key = (materialize records scopes).get? key := by
  have hrows : (inOrder (records ++ [r])).filter (concerns key) = (inOrder records).filter (concerns key) := by
    rw [inOrder, inOrder, filter_mergeSort comesBefore_trans comesBefore_total,
      filter_mergeSort comesBefore_trans comesBefore_total, List.filter_append, List.filter_cons_of_neg h,
      List.filter_nil, List.append_nil]
  have hbehind : (uncovered (records ++ [r])).get? key = (uncovered records).get? key := by
    rw [uncovered, uncovered, materialize, materialize, get?_foldl_absorb, get?_foldl_absorb, hrows]
  rw [get?_materialize, get?_materialize, hbehind]

/-! ## The order of records -/

/-- Whether a record at one place counts before a record at another: by time, then by hash, then by place. -/
def Precedes (a b : Record × Nat) : Prop :=
  a.1.timestamp < b.1.timestamp ∨
    a.1.timestamp = b.1.timestamp ∧ (a.1.hash < b.1.hash ∨ a.1.hash = b.1.hash ∧ a.2 < b.2)

instance (a b : Record × Nat) : Decidable (Precedes a b) := inferInstanceAs (Decidable (_ ∨ _))

theorem Precedes.asymm {a b : Record × Nat} (h : Precedes a b) : ¬Precedes b a := by
  rintro (hback | ⟨hback, hhash⟩) <;> rcases h with h | ⟨h, hbefore⟩
  · exact UInt64.lt_asymm h hback
  · exact UInt64.lt_irrefl _ (h ▸ hback)
  · exact UInt64.lt_irrefl _ (hback ▸ h)
  · rcases hhash with hhash | ⟨hhash, hplace⟩ <;> rcases hbefore with hbefore | ⟨hbefore, hplace'⟩
    · exact String.lt_asymm hbefore hhash
    · exact String.lt_irrefl _ (hbefore ▸ hhash)
    · exact String.lt_irrefl _ (hhash ▸ hbefore)
    · exact Nat.lt_asymm hplace hplace'

/-- Records that come before each other have the same time and the same hash. -/
theorem comesBefore_antisymm {a b : Record} (h : comesBefore a b) (h' : comesBefore b a) :
    a.timestamp = b.timestamp ∧ a.hash = b.hash := by
  rw [comesBefore_iff] at h h'
  rcases h with h | ⟨htime, hhash⟩ <;> rcases h' with h' | ⟨htime', hhash'⟩
  · exact absurd h' (UInt64.lt_asymm h)
  · exact absurd (htime' ▸ h) (UInt64.lt_irrefl _)
  · exact absurd (htime ▸ h') (UInt64.lt_irrefl _)
  · exact ⟨htime, Std.LawfulEqCmp.eq_of_compare (Std.OrientedCmp.isLE_antisymm hhash hhash')⟩

theorem precedes_of_not_comesBefore {a b : Record × Nat} (h : comesBefore a.1 b.1) (hback : ¬comesBefore b.1 a.1) :
    Precedes a b := by
  rw [comesBefore_iff] at h hback
  obtain ⟨htime, hhash⟩ := not_or.mp hback
  rcases h with h | ⟨heq, -⟩
  · exact .inl h
  · have hlater : compare b.1.hash a.1.hash = .gt := by
      by_contra hne
      exact hhash ⟨heq.symm, Ordering.ne_gt_iff_isLE.mp hne⟩
    have hearlier : compare a.1.hash b.1.hash = .lt := Std.OrientedCmp.lt_of_gt hlater
    exact .inr ⟨heq, .inl (compareOfLessAndEq_eq_lt.mp hearlier)⟩

/-- The records with their places, in the order in which the fold takes them in. -/
def placed (records : List Record) : List (Record × Nat) := records.zipIdx.mergeSort (List.zipIdxLE comesBefore)

theorem map_placed (records : List Record) : (placed records).map Prod.fst = inOrder records :=
  List.mergeSort_zipIdx

theorem mem_placed {records : List Record} {r : Record} {place : Nat} :
    (r, place) ∈ placed records ↔ records[place]? = some r := by
  rw [placed, List.mem_mergeSort, List.mem_zipIdx_iff_getElem?]

/-- No place comes twice. -/
theorem nodup_places (records : List Record) : ((placed records).map Prod.snd).Nodup := by
  have hperm : (placed records).Perm records.zipIdx := List.mergeSort_perm _ _
  rw [(hperm.map Prod.snd).nodup_iff, List.zipIdx_map_snd]
  exact List.nodup_range'

/-- **The fold takes the records in strictly increasing order.** -/
theorem pairwise_placed (records : List Record) : (placed records).Pairwise Precedes := by
  have hsorted : (placed records).Pairwise fun a b => List.zipIdxLE comesBefore a b = true :=
    List.pairwise_mergeSort (List.zipIdxLE_trans comesBefore_trans) (List.zipIdxLE_total comesBefore_total) _
  have hplaces : (placed records).Pairwise fun a b => a.2 ≠ b.2 := List.pairwise_map.mp (nodup_places records)
  refine (hsorted.and hplaces).imp ?_
  rintro a b ⟨hle, hne⟩
  unfold List.zipIdxLE at hle
  split at hle
  · rename_i hbefore
    split at hle
    · rename_i hback
      obtain ⟨htime, hhash⟩ := comesBefore_antisymm hbefore hback
      have hplace : a.2 ≤ b.2 := of_decide_eq_true hle
      exact .inr ⟨htime, .inr ⟨hhash, by omega⟩⟩
    · rename_i hback
      exact precedes_of_not_comesBefore hbefore hback
  · cases hle

/-! ## The record that decides -/

/-- A record at a place that concerns a key and comes behind all others which do. -/
structure Decides (records : List Record) (key : String) (r : Record) (place : Nat) : Prop where
  listed : records[place]? = some r
  concerns : concerns key r
  latest : ∀ a i, records[i]? = some a → Index.concerns key a → i ≠ place → Precedes (a, i) (r, place)

/-- The last of a row in strictly increasing order is the one behind all others. -/
theorem getLast?_eq_some_iff_of_pairwise {α : Type} {R : α → α → Prop} (asymm : ∀ {a b}, R a b → ¬R b a)
    {l : List α} (h : l.Pairwise R) {a : α} : l.getLast? = some a ↔ a ∈ l ∧ ∀ b ∈ l, b ≠ a → R b a := by
  have hlast {z : α} (hz : l.getLast? = some z) : ∀ b ∈ l, b ≠ z → R b z := by
    obtain ⟨front, rfl⟩ := List.getLast?_eq_some_iff.mp hz
    intro b hb hne
    rcases List.mem_append.mp hb with hb | hb
    · exact (List.pairwise_append.mp h).2.2 b hb z (List.mem_singleton_self z)
    · exact absurd (List.mem_singleton.mp hb) hne
  constructor
  · intro ha
    exact ⟨List.mem_of_getLast? ha, hlast ha⟩
  · rintro ⟨hmem, hbehind⟩
    cases hz : l.getLast? with
    | none => simp [List.getLast?_eq_none_iff.mp hz] at hmem
    | some z =>
      by_contra hne
      have hza : z ≠ a := fun heq => hne (congrArg some heq)
      exact asymm (hbehind z (List.mem_of_getLast? hz) hza) (hlast hz a hmem hza.symm)

/-- The last record that the fold takes in for a key is the one that decides it. -/
theorem getLast?_inOrder_iff {records : List Record} {key : String} {r : Record} :
    ((inOrder records).filter (concerns key)).getLast? = some r ↔ ∃ place, Decides records key r place := by
  have hrows := (pairwise_placed records).filter fun a => concerns key a.1
  have hmem (a : Record × Nat) : a ∈ (placed records).filter (fun a => concerns key a.1) ↔
      records[a.2]? = some a.1 ∧ concerns key a.1 := by
    rw [List.mem_filter, mem_placed]
  have hfilter : (inOrder records).filter (concerns key) =
      ((placed records).filter fun a => concerns key a.1).map Prod.fst := by
    rw [← map_placed, List.filter_map]
    rfl
  rw [hfilter, List.getLast?_map, Option.map_eq_some_iff]
  constructor
  · rintro ⟨⟨r, place⟩, hlast, rfl⟩
    obtain ⟨hin, hbehind⟩ := (getLast?_eq_some_iff_of_pairwise Precedes.asymm hrows).mp hlast
    obtain ⟨hlisted, hconcerns⟩ := (hmem _).mp hin
    refine ⟨place, hlisted, hconcerns, fun a i ha hcounts hne => ?_⟩
    exact hbehind (a, i) ((hmem _).mpr ⟨ha, hcounts⟩) fun heq => hne (congrArg Prod.snd heq)
  · rintro ⟨place, hlisted, hconcerns, hlatest⟩
    refine ⟨(r, place), (getLast?_eq_some_iff_of_pairwise Precedes.asymm hrows).mpr ⟨?_, ?_⟩, rfl⟩
    · exact (hmem _).mpr ⟨hlisted, hconcerns⟩
    · rintro ⟨a, i⟩ ha hne
      obtain ⟨hin, hcounts⟩ := (hmem _).mp ha
      refine hlatest a i hin hcounts ?_
      rintro rfl
      obtain rfl : r = a := Option.some.inj (hlisted.symm.trans hin)
      exact hne rfl

/-- **Behind the declarations, a key holds the value of the record that decides it.** -/
theorem get?_uncovered_iff {records : List Record} {key : String} {v : Value} :
    (uncovered records).get? key = some v ↔
      ∃ r place, Decides records key r place ∧ setsKey r ∧ r.value = v := by
  rw [uncovered, materialize, get?_foldl_absorb, Option.bind_eq_some_iff]
  constructor
  · rintro ⟨r, hlast, hleft⟩
    obtain ⟨place, hdecides⟩ := getLast?_inOrder_iff.mp hlast
    rw [left?, Option.ite_none_right_eq_some, Option.some_inj] at hleft
    exact ⟨r, place, hdecides, hleft⟩
  · rintro ⟨r, place, hdecides, hleft⟩
    refine ⟨r, getLast?_inOrder_iff.mpr ⟨place, hdecides⟩, ?_⟩
    rw [left?, Option.ite_none_right_eq_some, Option.some_inj]
    exact hleft

/-- Records with different stamps have one order, however they are listed. -/
theorem inOrder_eq_of_perm {records listed : List Record} (hperm : records.Perm listed)
    (hstamps : (records.map fun r => (r.timestamp, r.hash)).Nodup) : inOrder listed = inOrder records := by
  have hsorted (l : List Record) : (inOrder l).Pairwise fun a b => comesBefore a b = true :=
    List.pairwise_mergeSort comesBefore_trans comesBefore_total l
  refine List.Perm.eq_of_pairwise ?_ (hsorted listed) (hsorted records) ?_
  · intro a b ha hb hab hba
    obtain ⟨htime, hhash⟩ := comesBefore_antisymm hab hba
    have ha : a ∈ records := hperm.mem_iff.mpr (List.mem_mergeSort.mp ha)
    have hb : b ∈ records := List.mem_mergeSort.mp hb
    exact List.inj_on_of_nodup_map hstamps ha hb (Prod.ext htime hhash)
  · exact (List.mergeSort_perm _ _).trans (hperm.symm.trans (List.mergeSort_perm _ _).symm)

/-- **The latest record counts.** A key holds a value when the record that decides it has set that value and no secret
scope hides the key. So records with different stamps give one index, in whatever order they are listed. -/
theorem latest_counts (records : List Record) (scopes : Scopes) :
    (∀ key v, (materialize records scopes).get? key = some v ↔
      (∃ r place, Decides records key r place ∧ setsKey r ∧ r.value = v) ∧
        ∀ scope : Path, scope.isRoot = false → (Path.ofKey key).startsWith scope →
          scopes.liveSecret? scope.key = none) ∧
    ∀ listed, records.Perm listed → (records.map fun r => (r.timestamp, r.hash)).Nodup →
      materialize listed scopes = materialize records scopes := by
  constructor
  · intro key v
    rw [get?_materialize, ← Scopes.hidingScope?_eq_none_iff_startsWith, ← get?_uncovered_iff]
    cases scopes.hidingScope? (Path.ofKey key) with
    | none => simp
    | some scope => simp
  · intro listed hperm hstamps
    rw [materialize, materialize, inOrder_eq_of_perm hperm hstamps]

/-- A record and a removal that covers it, made at one time. -/
def tiedWrite : Record := ⟨"a.b", none, .bool true, .bool true, "", "1", "0", 5⟩

def tiedRemoval : Record := ⟨"a", some .remove, .text "-", .text "-", "", "0", "", 5⟩

theorem tiedWrite_decides : Decides [tiedWrite, tiedRemoval] "a.b" tiedWrite 0 := by
  refine ⟨rfl, by decide, ?_⟩
  intro a i ha _ hne
  match i with
  | 0 => exact absurd rfl hne
  | 1 =>
    obtain rfl : tiedRemoval = a := Option.some.inj ha
    decide
  | _ + 2 => cases ha

/-- At one time the hashes decide: the removal counts first, although it is listed behind what it covers. -/
theorem latest_counts_tie :
    (materialize [tiedWrite, tiedRemoval] .empty).get? "a.b" = some (.bool true) ∧
      materialize [tiedRemoval, tiedWrite] .empty = materialize [tiedWrite, tiedRemoval] .empty := by
  constructor
  · refine ((latest_counts _ .empty).1 "a.b" (.bool true)).mpr ⟨⟨tiedWrite, 0, tiedWrite_decides, rfl, rfl⟩, ?_⟩
    intro scope _ _
    rfl
  · exact (latest_counts _ .empty).2 _ (.swap tiedRemoval tiedWrite []) (by decide)

end Index

end PathLedger
