import Mathlib.Data.List.Chain
import PathLedger.Journal.Basic
import PathLedger.Ledger.Basic
import PathLedger.Proofs.Wire.Records

/-!
# Journals over many saves

After every save a journal holds some snapshot: the one saved last, but for its records, of which those of earlier saves
are kept when the ledger seems to go on behind them. That is decided by the hash at one place, and the hash of a record
says nothing of its time.

* `Journal.holding` — the tables of a journal that holds a snapshot.
* `Journal.save_holding` — **one save**: what is kept, and how many records are written.
* `Journal.load_holding` — **a journal that holds a snapshot loads it**.
* `Journal.saves_holding` — a row of saves; `Journal.saves_kept`, `Journal.load_kept` — a row from an empty journal.
* `Journal.saves_of_fronts` — where the hash tells the records in front, nothing is lost.
* `Journal.load_saves` — **what is loaded after a row of saves**, and when it is what was saved last.
* `Journal.time_made_again_is_lost` — a row of saves after which it is not.
-/

namespace PathLedger

/-- A snapshot of which the records and branches can be stored. -/
structure Snapshot.Storable (s : Snapshot) : Prop where
  records : ∀ r ∈ s.ledger, r.Storable
  branches : ∀ e ∈ s.branches.entries, e.2.Ordered ∧ (Wire.encodeValue e.2).length < 2 ^ 64

namespace Journal

/-- The entries of records under their positions. -/
def positions (records : List Record) : Entries Nat Bytes :=
  records.zipIdx.map fun e => (e.2, Wire.encodeRecord e.1)

theorem positions_append (records : List Record) (r : Record) :
    positions (records ++ [r]) = positions records ++ [(records.length, Wire.encodeRecord r)] := by
  simp [positions, List.zipIdx_append]

theorem ordered_positions (records : List Record) : (positions records).Ordered := by
  refine List.pairwise_iff_getElem.mpr fun i j hi hj hij => ?_
  simp only [positions, List.getElem_map, List.getElem_zipIdx, Nat.zero_add]
  exact Nat.compare_eq_lt.mpr hij

/-- The table of records under their positions. -/
def recordTable (records : List Record) : Dict Nat Bytes := ⟨positions records, ordered_positions records⟩

theorem recordTable_append (records : List Record) (r : Record) :
    (recordTable records).insert records.length (Wire.encodeRecord r) = recordTable (records ++ [r]) := by
  refine Dict.ext_of_entries ?_
  show Entries.put _ _ (positions records) = positions (records ++ [r])
  rw [positions_append, Entries.put_eq_append]
  intro e he
  obtain ⟨i, hi, rfl⟩ := List.mem_iff_getElem.mp he
  simp only [positions, List.length_map, List.length_zipIdx] at hi
  simp only [positions, List.getElem_map, List.getElem_zipIdx, Nat.zero_add]
  exact Nat.compare_eq_lt.mpr hi

/-- Records put in behind those that are there. -/
theorem foldl_recordTable (kept added : List Record) :
    (added.zipIdx kept.length).foldl (fun t e => t.insert e.2 (Wire.encodeRecord e.1)) (recordTable kept) =
      recordTable (kept ++ added) := by
  induction added generalizing kept with
  | nil => simp
  | cons r rest ih =>
    have := ih (kept ++ [r])
    rw [List.length_append, List.length_singleton, List.append_assoc] at this
    rw [List.zipIdx_cons, List.foldl_cons, recordTable_append, this]
    rfl

/-- A save behind the kept records puts in those behind them. -/
theorem putRecords_recordTable {kept ledger : List Record} (h : kept.length ≤ ledger.length) :
    putRecords (recordTable kept) kept.length ledger = recordTable (kept ++ ledger.drop kept.length) := by
  obtain ⟨front, back, rfl, hfront⟩ : ∃ front back, ledger = front ++ back ∧ front.length = kept.length :=
    ⟨_, _, (List.take_append_drop kept.length ledger).symm, List.length_take_of_le h⟩
  have hplaces : front.zipIdx.length = kept.length := by rw [List.length_zipIdx, hfront]
  rw [putRecords, List.zipIdx_append, Nat.zero_add, hfront, List.drop_left' hplaces, List.drop_left' hfront,
    foldl_recordTable]

/-- Whether kept records count as the front of a ledger: it is no shorter, and at the place of the last kept record
it has one with the same hash. -/
def Continues (kept ledger : List Record) : Prop :=
  kept.length ≤ ledger.length ∧
    ∀ last ∈ kept.getLast?, ∃ r ∈ ledger[kept.length - 1]?, r.hash = last.hash

instance (kept ledger : List Record) : Decidable (Continues kept ledger) :=
  inferInstanceAs (Decidable (kept.length ≤ ledger.length ∧
    ∀ last ∈ kept.getLast?, ∃ r ∈ ledger[kept.length - 1]?, r.hash = last.hash))

/-- The records that are kept once a ledger is saved over others. -/
def keep (kept ledger : List Record) : List Record :=
  if Continues kept ledger then kept ++ ledger.drop kept.length else ledger

/-- The tables of a journal that holds a snapshot. -/
def holding (s : Snapshot) : Journal :=
  ⟨recordTable s.ledger, s.secrets, s.noises, s.branches.mapValues Wire.encodeValue,
    s.operators.mapValues Operator.Kind.name⟩

theorem readFront_encodeRecord {r : Record} (h : r.Storable) :
    readFront Wire.decodeRecord (Wire.encodeRecord r) = .ok r := by
  have hread := Wire.decodeRecord_encodeRecord h []
  rw [List.append_nil] at hread
  rw [readFront, hread]

theorem count_holding (s : Snapshot) : (holding s).count = s.ledger.length := by
  show (positions s.ledger).length = _
  rw [positions, List.length_map, List.length_zipIdx]

theorem continues_holding {s : Snapshot} (h : ∀ r ∈ s.ledger, r.Storable) (ledger : List Record) :
    (holding s).continues ledger = .ok (decide (Continues s.ledger ledger)) := by
  unfold continues
  rw [count_holding]
  split
  · rename_i hshort
    rw [decide_eq_false fun hc : Continues _ _ => absurd hc.1 (Nat.not_le.mpr hshort)]
  · rename_i hlong
    rcases List.eq_nil_or_concat s.ledger with hnil | ⟨front, last, hlast⟩
    · have hempty : (holding s).records.entries.getLast? = none := by
        show (positions s.ledger).getLast? = none
        rw [hnil]
        rfl
      rw [hempty]
      have hc : Continues s.ledger ledger := ⟨by omega, by rw [hnil]; nofun⟩
      rw [decide_eq_true hc]
    · have hplace : (holding s).records.entries.getLast? = some (front.length, Wire.encodeRecord last) := by
        show (positions s.ledger).getLast? = _
        rw [hlast, List.concat_eq_append, positions_append, List.getLast?_concat]
      have hstorable : last.Storable := h last (by rw [hlast]; simp)
      rw [hplace]
      dsimp only
      rw [readFront_encodeRecord hstorable]
      refine congrArg Except.ok ?_
      have hlastOf : s.ledger.getLast? = some last := by rw [hlast, List.concat_eq_append, List.getLast?_concat]
      rw [Bool.eq_iff_iff, Option.any_eq_true, decide_eq_true_iff, Continues, hlastOf]
      simp [Nat.le_of_not_lt hlong]

/-- **A save keeps records behind which the ledger goes on**, and writes everything else anew. -/
theorem save_holding {stored : Snapshot} (h : ∀ r ∈ stored.ledger, r.Storable) (s : Snapshot) :
    (holding stored).save s = .ok (holding { s with ledger := keep stored.ledger s.ledger },
      if Continues stored.ledger s.ledger then .appended (s.ledger.length - stored.ledger.length)
      else .rewritten s.ledger.length) := by
  unfold save
  rw [continues_holding h, count_holding]
  refine congrArg Except.ok ?_
  by_cases hc : Continues stored.ledger s.ledger
  · have htable : putRecords (recordTable stored.ledger) stored.ledger.length s.ledger =
        recordTable (keep stored.ledger s.ledger) := by
      rw [keep, if_pos hc]
      exact putRecords_recordTable hc.1
    simp only [hc, decide_true, if_true, holding, htable]
  · have htable : putRecords .empty 0 s.ledger = recordTable (keep stored.ledger s.ledger) := by
      rw [keep, if_neg hc]
      exact @putRecords_recordTable [] s.ledger (Nat.zero_le _)
    simp only [hc, decide_false, Bool.false_eq_true, if_false, holding, htable]

theorem parse_name (k : Operator.Kind) : Operator.Kind.parse k.name = .ok k := by
  cases k <;> rfl

theorem kindsOf_names (operators : Dict String Operator.Kind) :
    kindsOf (operators.mapValues Operator.Kind.name) = operators := by
  have hentries : (operators.mapValues Operator.Kind.name).entries.filterMap (fun e =>
      (Operator.Kind.parse e.2).toOption.map fun k => (e.1, k)) = operators.entries := by
    show (operators.entries.map fun e => (e.1, e.2.name)).filterMap _ = _
    rw [List.filterMap_map]
    have hself : (fun e : String × Operator.Kind =>
        (Operator.Kind.parse e.2.name).toOption.map fun k => (e.1, k)) = some := by
      funext e
      rw [parse_name]
      rfl
    exact (congrArg (fun f => operators.entries.filterMap f) hself).trans (List.filterMap_some)
  rw [kindsOf, hentries, Dict.ofList_entries]

/-- Reading written things one after another. -/
theorem mapM_map_ok {α β γ : Type} {f : γ → Except Fault β} {g : α → β} {write : α → γ} {l : List α}
    (h : ∀ a ∈ l, f (write a) = .ok (g a)) : (l.map write).mapM f = .ok (l.map g) := by
  induction l with
  | nil => rfl
  | cons a rest ih =>
    rw [List.map_cons, List.mapM_cons, h a List.mem_cons_self, ih fun b hb => h b (List.mem_cons_of_mem _ hb)]
    rfl

theorem mapM_records {records : List Record} (h : ∀ r ∈ records, r.Storable) :
    (positions records).mapM (fun e => readFront Wire.decodeRecord e.2) = .ok records := by
  have hall : (positions records).mapM (fun e => readFront Wire.decodeRecord e.2) =
      .ok (records.zipIdx.map Prod.fst) := by
    unfold positions
    refine mapM_map_ok ?_
    intro e he
    exact readFront_encodeRecord (h e.1 (List.fst_mem_of_mem_zipIdx he))
  rw [hall, List.zipIdx_map_fst]

theorem mapM_branches {branches : Entries String Value}
    (h : ∀ e ∈ branches, e.2.Ordered ∧ (Wire.encodeValue e.2).length < 2 ^ 64) :
    (branches.mapValues Wire.encodeValue).mapM
      (fun e => (readFront Wire.decodeValue e.2).map fun v => (e.1, v)) = .ok branches := by
  have hall : (branches.mapValues Wire.encodeValue).mapM
      (fun e => (readFront Wire.decodeValue e.2).map fun v => (e.1, v)) = .ok (branches.map fun e => (e.1, e.2)) := by
    unfold Entries.mapValues
    refine mapM_map_ok ?_
    intro e he
    dsimp only
    rw [readFront, Wire.decodeValue_encodeValue (h e he).1 (h e he).2]
    rfl
  rw [hall, List.map_id']

/-- **A journal that holds a snapshot loads it.** -/
theorem load_holding {s : Snapshot} (h : s.Storable) : (holding s).load = .ok s := by
  have hread : (holding s).records.entries.mapM (fun e => readFront Wire.decodeRecord e.2) = .ok s.ledger :=
    mapM_records h.records
  have hread' : (holding s).branches.entries.mapM
      (fun e => (readFront Wire.decodeValue e.2).map fun v => (e.1, v)) = .ok s.branches.entries :=
    mapM_branches h.branches
  unfold load
  rw [hread, hread']
  simp only [bind, Except.bind, pure, Except.pure, Dict.ofList_entries]
  rw [holding, kindsOf_names]

theorem holding_empty : holding .empty = .empty := rfl

/-! ## One save after another -/

/-- Snapshots saved one after another. -/
def saves (j : Journal) : List Snapshot → Except Fault Journal
  | [] => .ok j
  | s :: rest => (j.save s).bind fun p => saves p.1 rest

/-- The records that are kept once snapshots have been saved over others. -/
def kept (records : List Record) (history : List Snapshot) : List Record :=
  history.foldl (fun records s => keep records s.ledger) records

theorem storable_keep {records ledger : List Record} (hrecords : ∀ r ∈ records, r.Storable)
    (hledger : ∀ r ∈ ledger, r.Storable) : ∀ r ∈ keep records ledger, r.Storable := by
  intro r hr
  rw [keep] at hr
  split at hr
  · exact (List.mem_append.mp hr).elim (hrecords r) fun hr => hledger r (List.mem_of_mem_drop hr)
  · exact hledger r hr

theorem storable_kept {records : List Record} (hrecords : ∀ r ∈ records, r.Storable) {history : List Snapshot}
    (h : ∀ s ∈ history, s.Storable) : ∀ r ∈ kept records history, r.Storable := by
  induction history generalizing records with
  | nil => exact hrecords
  | cons s rest ih =>
    exact ih (storable_keep hrecords (h s List.mem_cons_self).records) fun t ht => h t (List.mem_cons_of_mem _ ht)

/-- What a journal holds after a row of saves. -/
theorem saves_holding {stored : Snapshot} (hstored : ∀ r ∈ stored.ledger, r.Storable) {history : List Snapshot}
    (h : ∀ s ∈ history, s.Storable) (last : Snapshot) :
    saves (holding stored) (history ++ [last]) =
      .ok (holding { last with ledger := keep (kept stored.ledger history) last.ledger }) := by
  induction history generalizing stored with
  | nil =>
    rw [List.nil_append, saves, save_holding hstored]
    rfl
  | cons s rest ih =>
    have hs := h s List.mem_cons_self
    rw [List.cons_append, saves, save_holding hstored]
    exact ih (storable_keep hstored hs.records) fun t ht => h t (List.mem_cons_of_mem _ ht)

/-- A row of saves into an empty journal leaves the tables of the last snapshot, with the records that are kept. -/
theorem saves_kept {history : List Snapshot} (h : ∀ s ∈ history, s.Storable) (last : Snapshot) :
    saves .empty (history ++ [last]) =
      .ok (holding { last with ledger := keep (kept [] history) last.ledger }) := by
  rw [← holding_empty]
  exact saves_holding (List.forall_mem_nil _) h last

/-- And these tables are loaded. -/
theorem load_kept {history : List Snapshot} {last : Snapshot} (h : ∀ s ∈ history, s.Storable) (hlast : last.Storable) :
    (holding { last with ledger := keep (kept [] history) last.ledger }).load =
      .ok { last with ledger := keep (kept [] history) last.ledger } :=
  load_holding ⟨storable_keep (storable_kept (List.forall_mem_nil _) h) hlast.records, hlast.branches⟩

theorem keep_eq_iff {records ledger : List Record} :
    keep records ledger = ledger ↔ (Continues records ledger → records <+: ledger) := by
  rw [keep]
  split
  · rename_i hc
    constructor
    · exact fun h _ => ⟨_, h⟩
    · intro h
      obtain ⟨rest, rfl⟩ := h hc
      rw [List.drop_left]
  · rename_i hc
    exact ⟨fun _ h => absurd h hc, fun _ => rfl⟩

/-- Where the hash at the place of the last record kept is the same only in front of the same records, nothing is lost:
the journal holds the snapshot saved last. -/
theorem saves_of_fronts {stored : Snapshot} (hstored : ∀ r ∈ stored.ledger, r.Storable) {history : List Snapshot}
    (h : ∀ s ∈ history, s.Storable) {last : Snapshot}
    (hfronts : (stored :: (history ++ [last])).IsChain fun s t =>
      Continues s.ledger t.ledger → s.ledger <+: t.ledger) :
    saves (holding stored) (history ++ [last]) = .ok (holding last) := by
  induction history generalizing stored with
  | nil =>
    obtain ⟨hfront, -⟩ := List.isChain_cons_cons.mp hfronts
    rw [saves_holding hstored h, kept, List.foldl_nil, keep_eq_iff.mpr hfront]
  | cons s rest ih =>
    obtain ⟨hfront, hbehind⟩ := List.isChain_cons_cons.mp hfronts
    rw [List.cons_append, saves, save_holding hstored, keep_eq_iff.mpr hfront]
    exact ih (h s List.mem_cons_self).records (fun t ht => h t (List.mem_cons_of_mem _ ht)) hbehind

/-- The snapshot of one write at a time. -/
def written (time : UInt64) : Snapshot :=
  ⟨(Ledger.empty.append ⟨⟨["a"]⟩, none, .bool true, .bool true⟩ "" time).1.records, .empty, .empty, .empty, .empty⟩

theorem storable_written : (written 1000).Storable ∧ (written 1001).Storable := by
  have hrecord {time : UInt64} (hsize : ∀ r ∈ (written time).ledger, (Wire.encodeRecord r).length < 2 ^ 64) :
      (written time).Storable := by
    refine ⟨fun r hr => ⟨?_, ?_, hsize r hr⟩, List.forall_mem_nil _⟩
    · rw [List.mem_singleton.mp hr]
      trivial
    · rw [List.mem_singleton.mp hr]
      trivial
  exact ⟨hrecord (by decide +kernel), hrecord (by decide +kernel)⟩

theorem storable_first : ∀ s ∈ [written 1000], s.Storable := by
  intro s hs
  rw [List.mem_singleton.mp hs]
  exact storable_written.1

/-- **What is loaded after a row of saves.** Every save succeeds, and the snapshot saved last is loaded with all its
tables and with the records that are kept: those of earlier saves stay when the hash at the place of the last of them is
the same. So it is loaded exactly as it was saved if and only if these records are the front of its ledger whenever that
hash is the same. -/
theorem load_saves {history : List Snapshot} {last : Snapshot} (h : ∀ s ∈ history, s.Storable) (hlast : last.Storable) :
    ∃ j, saves .empty (history ++ [last]) = .ok j ∧
      j.load = .ok { last with ledger := keep (kept [] history) last.ledger } ∧
      (j.load = .ok last ↔ (Continues (kept [] history) last.ledger → kept [] history <+: last.ledger)) := by
  have hload := load_kept h hlast
  refine ⟨_, saves_kept h last, hload, ?_⟩
  rw [← keep_eq_iff]
  constructor
  · intro hexact
    have hsame := Except.ok.inj (hload.symm.trans hexact)
    exact congrArg Snapshot.ledger hsame
  · intro hkeep
    rw [hload, hkeep]

theorem load_saves_written :
    (∀ s ∈ [written 1000], s.Storable) ∧ (written 1001).Storable ∧
    ∃ j, saves .empty ([written 1000] ++ [written 1001]) = .ok j ∧
      j.load = .ok { written 1001 with ledger := keep (kept [] [written 1000]) (written 1001).ledger } ∧
      (j.load = .ok (written 1001) ↔ (Continues (kept [] [written 1000]) (written 1001).ledger →
        kept [] [written 1000] <+: (written 1001).ledger)) :=
  ⟨storable_first, storable_written.2, load_saves storable_first storable_written.2⟩

/-- The same write at another time has the same hash. -/
theorem continues_written : Continues (written 1000).ledger (written 1001).ledger := by
  refine ⟨Nat.le_refl _, fun last hlast => ?_⟩
  cases hlast
  exact ⟨_, rfl, rfl⟩

/-- **A record made again is not written.** With the snapshot of a write saved, and then that of the same write made
again at another time, the first one is loaded. -/
theorem time_made_again_is_lost : ∃ j, saves .empty [written 1000, written 1001] = .ok j ∧
    j.load = .ok (written 1000) ∧ written 1000 ≠ written 1001 := by
  have hfirst : kept [] [written 1000] = (written 1000).ledger := rfl
  have hsecond : keep (written 1000).ledger (written 1001).ledger = (written 1000).ledger := by
    rw [keep, if_pos continues_written]
    rfl
  have hsaved : saves .empty [written 1000, written 1001] = .ok (holding (written 1000)) := by
    have hempty : ∀ r ∈ Snapshot.empty.ledger, r.Storable := List.forall_mem_nil _
    have hsaved := saves_holding hempty storable_first (written 1001)
    rw [holding_empty, Snapshot.empty, hfirst, hsecond] at hsaved
    exact hsaved
  refine ⟨_, hsaved, load_holding storable_written.1, fun h => ?_⟩
  have htimes := congrArg (fun s => s.ledger.map Record.timestamp) h
  exact absurd htimes (by decide)

end Journal

end PathLedger
