import PathLedger.Index.Basic
import PathLedger.Proofs.Entries
import PathLedger.Proofs.Path.Keys

/-!
# The entries below a path

The keys below a path stand side by side in key order, although keys with characters that come before the dot stand
between the path's own key and them: whatever comes between a beginning and a key with that beginning has it too. So
the stretch of entries that is read holds every entry below the path.

* `Text.prefix_of_between` — **between a beginning and a text that has it, every text has it**.
* `Index.descendants_eq_filter` — **the stretch of entries that is read** is all that lies below.
* `Path.under` — the key of what lies below a path.
* `Index.mem_descendants_iff` — the entries below a clean path, by their paths.
-/

namespace PathLedger

/-! ## Stretches of ordered lists -/

section Stretch

variable {α : Type} {before p : α → Bool} {l : List α}

/-- Where whatever comes before an element of a kind is of the kind, the front is all of the kind. -/
theorem takeWhile_eq_filter (h : l.Pairwise fun a b => p b → p a) : l.takeWhile p = l.filter p := by
  induction l with
  | nil => rfl
  | cons a l ih =>
    obtain ⟨hfirst, hrest⟩ := List.pairwise_cons.mp h
    by_cases ha : p a
    · rw [List.takeWhile_cons_of_pos ha, List.filter_cons_of_pos ha, ih hrest]
    · rw [List.takeWhile_cons_of_neg ha, List.filter_cons_of_neg ha]
      exact (List.filter_eq_nil_iff.mpr fun b hb hpb => ha (hfirst b hb hpb)).symm

/-- The stretch behind what comes before is all of a kind, where the kind has no gaps and nothing of it comes before. -/
theorem takeWhile_dropWhile_eq_filter (hbefore : ∀ a ∈ l, before a → p a = false)
    (hgaps : l.Pairwise fun a b => before a = false → p b → p a) (hfront : l.Pairwise fun a b => before b → before a) :
    (l.dropWhile before).takeWhile p = l.filter p := by
  induction l with
  | nil => rfl
  | cons a l ih =>
    obtain ⟨hbeforeFirst, hbefore⟩ := List.forall_mem_cons.mp hbefore
    obtain ⟨hgapsFirst, hgapsRest⟩ := List.pairwise_cons.mp hgaps
    obtain ⟨hfrontFirst, hfrontRest⟩ := List.pairwise_cons.mp hfront
    by_cases ha : before a
    · rw [List.dropWhile_cons_of_pos ha, List.filter_cons_of_neg (by simp [hbeforeFirst ha]),
        ih hbefore hgapsRest hfrontRest]
    · have hnone : ∀ b ∈ a :: l, before b = false := by
        intro b hb
        rcases List.mem_cons.mp hb with rfl | hb
        · exact Bool.eq_false_iff.mpr ha
        · exact Bool.eq_false_iff.mpr fun hb' => ha (hfrontFirst b hb hb')
      rw [List.dropWhile_cons_of_neg ha]
      exact takeWhile_eq_filter (hgaps.imp_of_mem fun {b c} hb _ h => h (hnone b hb))

end Stretch

/-! ## Texts with the same beginning -/

namespace Text

theorem not_lt_of_prefix {start s : List Char} (h : start <+: s) : ¬s < start := by
  obtain ⟨rest, rfl⟩ := h
  induction start with
  | nil => exact List.not_lt_nil _
  | cons c start ih =>
    rw [List.cons_append, List.cons_lt_cons_iff]
    rintro (h | ⟨-, h⟩)
    · exact Char.lt_irrefl c h
    · exact ih h

theorem compare_eq_lt_iff {s t : String} : compare s t = .lt ↔ s.toList < t.toList :=
  compareOfLessAndEq_eq_lt

/-- **Between a beginning and a text that has it, every text has it.** -/
theorem prefix_of_between {start s t : List Char} (hstart : ¬s < start) (hlt : s < t) (h : start <+: t) :
    start <+: s := by
  induction start generalizing s t with
  | nil => exact List.nil_prefix
  | cons c start ih =>
    obtain ⟨rest, rfl⟩ := h
    cases s with
    | nil => exact absurd (List.nil_lt_cons c start) hstart
    | cons d s =>
      rw [List.cons_append, List.cons_lt_cons_iff] at hlt
      rw [List.cons_lt_cons_iff, not_or] at hstart
      obtain ⟨heq, hrest⟩ := hlt.resolve_left hstart.1
      rw [heq]
      exact (List.prefix_cons_inj c).mpr (ih (fun h => hstart.2 ⟨heq, h⟩) hrest (List.prefix_append start rest))

end Text

/-! ## The stretch below a path -/

namespace Index

open Text PathLedger.Path

/-- **The stretch of entries that is read** holds all entries below the path. -/
theorem descendants_eq_filter (index : Index) (p : Path) :
    index.descendants p = index.entries.filter fun e => (below p).isPrefixOf e.1.toList && !e.1.isEmpty := by
  have hbefore (key : String) : (compare key (String.ofList (below p)) == .lt) = true ↔ key.toList < below p := by
    rw [beq_iff_eq, compare_eq_lt_iff, String.toList_ofList]
  unfold descendants
  dsimp only
  rw [takeWhile_dropWhile_eq_filter ?before ?gaps ?front, List.filter_filter]
  · exact List.filter_congr fun e _ => Bool.and_comm _ _
  case before =>
    intro e _ he
    refine Bool.eq_false_iff.mpr fun hprefix => ?_
    exact not_lt_of_prefix (List.isPrefixOf_iff_prefix.mp hprefix) ((hbefore e.1).mp he)
  case gaps =>
    refine index.ordered.imp fun {e d} hlt hnot hprefix => ?_
    rw [compare_eq_lt_iff] at hlt
    refine List.isPrefixOf_iff_prefix.mpr (prefix_of_between ?_ hlt (List.isPrefixOf_iff_prefix.mp hprefix))
    exact mt (hbefore e.1).mpr (Bool.eq_false_iff.mp hnot)
  case front =>
    refine index.ordered.imp fun {e d} hlt hd => ?_
    rw [compare_eq_lt_iff] at hlt
    exact (hbefore e.1).mpr (List.lt_trans hlt ((hbefore d.1).mp hd))

end Index

/-! ## Paths below a path -/

namespace Path

variable {p q : Path} {k k' : String}

/-- The key of what lies at a key below a path. -/
def under (p : Path) (k : String) : String := if p.isRoot then k else p.key ++ "." ++ k

theorem key_of_isRoot (h : p.isRoot) : p.key = "" := by
  rw [key, List.isEmpty_iff.mp h]
  rfl

theorem join_of_isRoot (h : q.isRoot) : p.join q = p := by
  rw [join, List.isEmpty_iff.mp h, List.append_nil]

theorem key_join (hq : q.isRoot = false) : (p.join q).key = p.under q.key := by
  have hq' : q.segments ≠ [] := by simpa [isRoot] using hq
  cases hp : p.isRoot with
  | true => rw [under, if_pos hp, key, join, List.isEmpty_iff.mp hp, List.nil_append, key]
  | false =>
    rw [under, if_neg (by simp [hp])]
    exact joinSegments_append (by simpa [isRoot] using hp) hq'

theorem isRoot_join (hq : q.isRoot = false) : (p.join q).isRoot = false := by
  simp_all [isRoot, join]

theorem Clean.join (hp : p.Clean) (hq : q.Clean) : (p.join q).Clean :=
  fun s hs => (List.mem_append.mp hs).elim (hp s) (hq s)

theorem Clean.key_ne_empty (h : p.Clean) (hp : p.isRoot = false) : p.key ≠ "" :=
  Path.key_ne_empty (fun s hs => (h s hs).1) hp

theorem under_inj (h : p.under k = p.under k') : k = k' := by
  unfold under at h
  split at h
  · exact h
  · have htext := congrArg String.toList h
    simp only [String.toList_append] at htext
    exact String.toList_inj.mp (List.append_cancel_left htext)

theorem toList_under (hp : p.Clean) (k : String) : (p.under k).toList = Index.below p ++ k.toList := by
  cases hroot : p.isRoot with
  | true =>
    rw [under, if_pos hroot, Index.below, key_of_isRoot hroot]
    rfl
  | false =>
    have hkey : p.key.isEmpty = false := Bool.eq_false_iff.mpr (mt String.isEmpty_iff.mp (hp.key_ne_empty hroot))
    rw [under, if_neg (by simp [hroot]), Index.below, hkey, String.toList_append]
    rfl

/-- A key below a path, which spells a path itself, is the key of a path there. -/
theorem exists_key_of_under (hp : p.Clean) (hspelled : Spelled (p.under k)) (hne : p.under k ≠ p.key) :
    ∃ q : Path, q.Clean ∧ q.isRoot = false ∧ q.key = k := by
  refine ⟨ofKey k, ofKey_clean k, ?_⟩
  cases hroot : p.isRoot with
  | true =>
    rw [under, if_pos hroot] at hspelled hne
    rw [key_of_isRoot hroot] at hne
    exact ⟨hspelled.isRoot hne, hspelled⟩
  | false =>
    have hunder : p.under k = p.key ++ "." ++ k := by rw [under, if_neg (by simp [hroot])]
    have hcut : ofKey (p.under k) = p.join (ofKey k) := by rw [hunder, ofKey_append, ofKey_key hp]
    have hkey : (p.join (ofKey k)).key = p.under k := by rw [← hcut, hspelled]
    cases hq : (ofKey k).isRoot with
    | true => exact absurd (by rw [← hkey, join_of_isRoot hq]) hne
    | false => exact ⟨rfl, under_inj ((key_join hq).symm.trans hkey)⟩

end Path

namespace Index

open PathLedger.Path

variable {index : Index} {p : Path}

/-- **The entries below a path** in an index whose keys spell paths: those at the paths behind it. -/
theorem mem_descendants_iff (hkeys : ∀ k ∈ index.keys, Spelled k) (hp : p.Clean) (hnone : index.entry p = none)
    {e : String × Value} :
    e ∈ index.descendants p ↔ e ∈ index.entries ∧ ∃ q : Path, q.Clean ∧ q.isRoot = false ∧ e.1 = (p.join q).key := by
  rw [descendants_eq_filter, List.mem_filter, Bool.and_eq_true, List.isPrefixOf_iff_prefix]
  refine and_congr_right fun he => ?_
  constructor
  · rintro ⟨⟨rest, hrest⟩, -⟩
    have hunder : p.under (String.ofList rest) = e.1 := by
      rw [← String.toList_inj, toList_under hp, String.toList_ofList, hrest]
    have hother : e.1 ≠ p.key := by
      intro heq
      have hfound : index.get? e.1 = some e.2 := Dict.get?_eq_some_iff_mem.mpr he
      rw [heq, ← entry, hnone] at hfound
      cases hfound
    obtain ⟨q, hclean, hroot, hkey⟩ := exists_key_of_under hp
      (by rw [hunder]; exact hkeys e.1 (List.mem_map_of_mem he)) (by rwa [hunder])
    exact ⟨q, hclean, hroot, by rw [key_join hroot, hkey, hunder]⟩
  · rintro ⟨q, hclean, hroot, hkey⟩
    refine ⟨⟨q.key.toList, by rw [← toList_under hp, ← key_join hroot, hkey]⟩, ?_⟩
    rw [Bool.not_eq_true', hkey]
    exact Bool.eq_false_iff.mpr (mt String.isEmpty_iff.mp ((hp.join hclean).key_ne_empty (isRoot_join hroot)))

/-- An entry that does not lie below a path gives it no child. -/
theorem childrenOf_insert {key : String} (h : ((below p).isPrefixOf key.toList && !key.isEmpty) = false) (v : Value) :
    childrenOf (index.insert key v) p = index.childrenOf p := by
  have hsame : descendants (index.insert key v) p = index.descendants p := by
    rw [descendants_eq_filter, descendants_eq_filter]
    exact Entries.filter_put (p := fun k : String => (below p).isPrefixOf k.toList && !k.isEmpty) h v index.entries
  unfold childrenOf
  rw [hsame]

end Index

end PathLedger
