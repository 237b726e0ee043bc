import PathLedger.Proofs.Wire.Decoded
import PathLedger.Wire.Record

/-!
# Readers take a front of what they are given

What a reader finds does not depend on the bytes behind what it took: with more bytes behind, it finds the same and
leaves the more. Readers are put together step by step, and so is this: each step may use what was found before.

* `Wire.Extends` — the outcome of a reader, and its outcome with more bytes behind.
* `Wire.Extends.bind` — one reader after another.
* `Wire.decodeValueWithin_extends`, `Wire.decodeRecord_extends` — **values and records are found in front**, the
  nesting of values being bounded by the bytes that are there.
-/

namespace PathLedger.Wire

/-- A second outcome is the first one with more bytes left over, unless the first is a fault. -/
def Extends {α : Type} (more : Bytes) (x y : Except Fault (α × Bytes)) : Prop :=
  ∀ a r, x = .ok (a, r) → y = .ok (a, r ++ more)

section Steps

variable {α β : Type} {more : Bytes}

theorem Extends.ok (a : α) (r : Bytes) : Extends more (.ok (a, r)) (.ok (a, r ++ more)) := by
  rintro _ _ ⟨⟩
  rfl

theorem Extends.error (f : Fault) (y : Except Fault (α × Bytes)) : Extends more (.error f) y := nofun

/-- One reader after another. -/
theorem Extends.bind {x y : Except Fault (α × Bytes)} {next next' : α × Bytes → Except Fault (β × Bytes)}
    (h : Extends more x y) (hnext : ∀ a r, Extends more (next (a, r)) (next' (a, r ++ more))) :
    Extends more (x >>= next) (y >>= next') := by
  intro c r hc
  cases hx : x with
  | error f =>
    rw [hx] at hc
    cases hc
  | ok p =>
    rw [hx] at hc
    rw [h p.1 p.2 hx]
    exact hnext p.1 p.2 c r hc

theorem Extends.map {x y : Except Fault (α × Bytes)} (h : Extends more x y) (f : α → β) :
    Extends more (x.map fun p => (f p.1, p.2)) (y.map fun p => (f p.1, p.2)) := by
  intro b r hb
  obtain ⟨a, hx, rfl⟩ := map_ok hb
  rw [h a r hx]
  rfl

theorem Extends.ite {c : Prop} [Decidable c] {x x' y y' : Except Fault (α × Bytes)} (h : Extends more x y)
    (h' : Extends more x' y') : Extends more (if c then x else x') (if c then y else y') := by
  split
  · exact h
  · exact h'

end Steps

/-! ## Simple data -/

variable {α β : Type} (more : Bytes)

theorem decodeVarintWithin_extends (lastByte groups : Nat) (b : Bytes) :
    Extends more (decodeVarintWithin lastByte groups b) (decodeVarintWithin lastByte groups (b ++ more)) := by
  induction groups generalizing b with
  | zero => exact .error _ _
  | succ groups ih =>
    cases b with
    | nil => exact .error _ _
    | cons x rest =>
      rw [List.cons_append, decodeVarintWithin, decodeVarintWithin]
      refine .ite (.ite (.error _ _) (.ok _ _)) fun n r hn => ?_
      cases hbelow : decodeVarintWithin lastByte groups rest with
      | error f =>
        rw [hbelow] at hn
        cases hn
      | ok p =>
        rw [hbelow] at hn
        rw [ih rest p.1 p.2 hbelow]
        obtain ⟨rfl, rfl⟩ := Prod.mk.inj (Except.ok.inj hn)
        rfl

theorem decodeVarint_extends (w : Width) (b : Bytes) :
    Extends more (decodeVarint w b) (decodeVarint w (b ++ more)) :=
  decodeVarintWithin_extends more w.lastByte w.groups b

theorem decodeByte_extends (b : Bytes) : Extends more (decodeByte b) (decodeByte (b ++ more)) := by
  cases b with
  | nil => exact .error _ _
  | cons x rest => exact .ok x rest

theorem decodeBytes_extends (n : Nat) (b : Bytes) : Extends more (decodeBytes n b) (decodeBytes n (b ++ more)) := by
  intro a r h
  rw [decodeBytes] at h
  split at h
  · rename_i hlength
    obtain ⟨rfl, rfl⟩ := Prod.mk.inj (Except.ok.inj h)
    have hparts := decodeBytes_append hlength (b.drop n ++ more)
    rwa [← List.append_assoc, List.take_append_drop] at hparts
  · cases h

theorem decodeBool_extends (b : Bytes) : Extends more (decodeBool b) (decodeBool (b ++ more)) :=
  .bind (decodeByte_extends more b) fun _ _ => .ite (.ok _ _) (.ite (.ok _ _) (.error _ _))

theorem decodeText_extends (b : Bytes) : Extends more (decodeText b) (decodeText (b ++ more)) := by
  refine .bind (decodeVarint_extends more .w64 b) fun n r => ?_
  refine .bind (decodeBytes_extends more n r) fun bytes r => ?_
  dsimp only
  cases Bytes.toText? bytes with
  | some s => exact .ok s r
  | none => exact .error _ _

theorem decodeNumber_extends (b : Bytes) : Extends more (decodeNumber b) (decodeNumber (b ++ more)) :=
  .bind (decodeBytes_extends more 8 b) fun _ r => .ok _ r

theorem decodeOption_extends {d : Decoder α} (h : ∀ b, Extends more (d b) (d (b ++ more))) (b : Bytes) :
    Extends more (decodeOption d b) (decodeOption d (b ++ more)) :=
  .bind (decodeByte_extends more b) fun _ r =>
    .ite (.ok _ _) (.ite (.bind (h r) fun _ r => .ok _ r) (.error _ _))

theorem decodeTimes_extends {d d' : Decoder α} (h : ∀ b, Extends more (d b) (d' (b ++ more))) (n : Nat) (b : Bytes) :
    Extends more (decodeTimes d n b) (decodeTimes d' n (b ++ more)) := by
  induction n generalizing b with
  | zero => exact .ok _ _
  | succ n ih => exact .bind (h b) fun a r => .bind (ih r) fun as r => .ok _ r

theorem decodeList_extends {d d' : Decoder α} (h : ∀ b, Extends more (d b) (d' (b ++ more))) (b : Bytes) :
    Extends more (decodeList d b) (decodeList d' (b ++ more)) :=
  .bind (decodeVarint_extends more .w64 b) fun n r => decodeTimes_extends more h n r

theorem decodePair_extends {d d' : Decoder α} {e e' : Decoder β} (hd : ∀ b, Extends more (d b) (d' (b ++ more)))
    (he : ∀ b, Extends more (e b) (e' (b ++ more))) (b : Bytes) :
    Extends more (decodePair d e b) (decodePair d' e' (b ++ more)) :=
  .bind (hd b) fun _ r => .bind (he r) fun _ r => .ok _ r

/-! ## Values and records -/

theorem decodeContent_extends {nested nested' : Decoder Value}
    (h : ∀ b, Extends more (nested b) (nested' (b ++ more))) (kind : Nat) (b : Bytes) :
    Extends more (decodeContent nested kind b) (decodeContent nested' kind (b ++ more)) := by
  -- One case for each kind of value, in the order of their numbers.
  refine .ite (.ok _ _) (.ite ((decodeBool_extends more b).map _) (.ite ((decodeNumber_extends more b).map _) ?_))
  refine .ite ((decodeText_extends more b).map _) (.ite ((decodeList_extends more h b).map _) ?_)
  refine .ite ((decodeList_extends more (decodePair_extends more (decodeText_extends more) h) b).map
    fun fields => Value.object (Entries.ofList fields)) ?_
  refine .ite ((decodeText_extends more b).map _) (.ite ((decodeText_extends more b).map _) ?_)
  exact .ite ((decodeText_extends more b).map _) (.error _ _)

/-- **Values are found in front**, also where more nesting is allowed. -/
theorem decodeValueWithin_extends {depth depth' : Nat} (h : depth ≤ depth') (b : Bytes) :
    Extends more (decodeValueWithin depth b) (decodeValueWithin depth' (b ++ more)) := by
  induction depth generalizing depth' b with
  | zero => exact .error _ _
  | succ depth ih =>
    obtain ⟨below, rfl⟩ : ∃ below, depth' = below + 1 := ⟨depth' - 1, by omega⟩
    refine .bind (decodeVarint_extends more .w32 b) fun kind r => ?_
    exact decodeContent_extends more (fun b => ih (Nat.le_of_succ_le_succ h) b) kind r

theorem decodeValue_extends (b : Bytes) : Extends more (decodeValue b) (decodeValue (b ++ more)) := by
  refine decodeValueWithin_extends more ?_ b
  rw [List.length_append]
  omega

theorem decodeKind_extends (b : Bytes) : Extends more (decodeKind b) (decodeKind (b ++ more)) := by
  refine .bind (decodeVarint_extends more .w32 b) fun n r => ?_
  dsimp only
  cases Operator.Kind.all[n]? with
  | some k => exact .ok k r
  | none => exact .error _ _

/-- **Records are found in front.** -/
theorem decodeRecord_extends (b : Bytes) : Extends more (decodeRecord b) (decodeRecord (b ++ more)) :=
  .bind (decodeText_extends more b) fun _ r =>
    .bind (decodeOption_extends more (decodeKind_extends more) r) fun _ r =>
    .bind (decodeValue_extends more r) fun _ r =>
    .bind (decodeValue_extends more r) fun _ r =>
    .bind (decodeText_extends more r) fun _ r =>
    .bind (decodeText_extends more r) fun _ r =>
    .bind (decodeText_extends more r) fun _ r =>
    .bind (decodeVarint_extends more .w64 r) fun _ r => .ok _ r

end PathLedger.Wire
