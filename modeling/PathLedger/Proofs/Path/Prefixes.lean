import PathLedger.Bytes.Ascii
import PathLedger.Proofs.Path.Keys

/-!
# Prefixes of keys and of paths

What lies below a path is told from the keys alone, by looking at their bytes: the one key starts with the other, and
the next byte is the dot. The bytes of two texts agree in front only where the texts do, and a key that goes on without
a dot names another path.

* `Bytes.ofText_prefix_iff` — bytes start with the bytes of a text just when their own text starts with it.
* `Bytes.atOrUnder` — the test on the bytes of keys; `Bytes.atOrUnder_ofText` says that the texts decide it.
* `Path.atOrUnder_eq_startsWith` — **for paths without empty or dotted segments, prefixes of keys are prefixes of
  paths**, and every such path is read back from its key.
-/

namespace PathLedger

/-! ## Bytes of texts -/

namespace Bytes

section Encoded

variable {c d : Char} {x y : Bytes} {a b : List Char} {s t : String}

theorem ofText_eq_flatMap (s : String) : ofText s = s.toList.flatMap String.utf8EncodeChar := by
  rw [ofText, String.toUTF8_eq_toByteArray, ← String.utf8Encode_toList, List.utf8Encode, List.data_toByteArray]

/-- The first character of a row of bytes can be told, and so can what follows it. -/
theorem utf8EncodeChar_append_inj (h : String.utf8EncodeChar c ++ x = String.utf8EncodeChar d ++ y) :
    c = d ∧ x = y := by
  have hrows := congrArg List.toByteArray h
  rw [List.toByteArray_append, List.toByteArray_append, ← List.utf8Encode_singleton, ← List.utf8Encode_singleton]
    at hrows
  have hfirst := congrArg (·.utf8DecodeChar? 0) hrows
  simp only [List.utf8DecodeChar?_utf8Encode_singleton_append] at hfirst
  obtain rfl := Option.some.inj hfirst
  exact ⟨rfl, List.append_cancel_left h⟩

theorem utf8EncodeChar_ne_nil (c : Char) : String.utf8EncodeChar c ≠ [] := by
  rw [← List.length_pos_iff, String.length_utf8EncodeChar]
  exact c.utf8Size_pos

/-- Encoded characters start with others just when the characters do: no character is cut in two. -/
theorem flatMap_utf8EncodeChar_prefix_iff :
    a.flatMap String.utf8EncodeChar <+: b.flatMap String.utf8EncodeChar ↔ a <+: b := by
  constructor
  · intro h
    induction a generalizing b with
    | nil => exact List.nil_prefix
    | cons c r ih =>
      obtain ⟨rest, hrest⟩ := h
      rw [List.flatMap_cons, List.append_assoc] at hrest
      cases b with
      | nil => exact absurd (List.append_eq_nil_iff.mp hrest).1 (utf8EncodeChar_ne_nil c)
      | cons d s =>
        obtain ⟨rfl, htail⟩ := utf8EncodeChar_append_inj (hrest.trans List.flatMap_cons)
        exact List.cons_prefix_cons.mpr ⟨rfl, ih ⟨rest, htail⟩⟩
  · rintro ⟨rest, rfl⟩
    rw [List.flatMap_append]
    exact List.prefix_append _ _

/-- The bytes of a text start with those of another just when the text itself does. -/
theorem ofText_prefix_iff : ofText s <+: ofText t ↔ s.toList <+: t.toList := by
  rw [ofText_eq_flatMap, ofText_eq_flatMap, flatMap_utf8EncodeChar_prefix_iff]

theorem ofText_inj : ofText s = ofText t ↔ s = t := by
  refine ⟨fun h => ?_, congrArg ofText⟩
  have hle : s.toList <+: t.toList := ofText_prefix_iff.mp (h ▸ List.prefix_refl _)
  have hge : t.toList <+: s.toList := ofText_prefix_iff.mp (h ▸ List.prefix_refl _)
  exact String.toList_inj.mp (hle.eq_of_length_le hge.length_le)

theorem ofText_append (s t : String) : ofText (s ++ t) = ofText s ++ ofText t := by
  rw [ofText_eq_flatMap, ofText_eq_flatMap, ofText_eq_flatMap, String.toList_append, List.flatMap_append]

end Encoded

/-! ## The test on bytes -/

/-- Whether the bytes of a key are those of another, or start with them and go on with a dot. -/
def atOrUnder (key top : Bytes) : Bool :=
  top.isEmpty || key == top ||
    (top.length < key.length && top.isPrefixOf key && key[top.length]? == some Ascii.point)

theorem concat_prefix_iff {top key : Bytes} {b : UInt8} :
    top ++ [b] <+: key ↔ top.length < key.length ∧ top <+: key ∧ key[top.length]? = some b := by
  constructor
  · rintro ⟨rest, rfl⟩
    simp
  · rintro ⟨hlonger, ⟨rest, rfl⟩, hnext⟩
    cases rest with
    | nil => simp at hlonger
    | cons c more =>
      rw [List.getElem?_append_right (Nat.le_refl _), Nat.sub_self] at hnext
      obtain rfl := Option.some.inj hnext
      exact ⟨more, List.append_assoc _ _ _⟩

/-- **The bytes of two keys tell what their texts tell.** -/
theorem atOrUnder_ofText (key top : String) : atOrUnder (ofText key) (ofText top) = Path.atOrUnder key top := by
  have hpoint : ofText "." = [Ascii.point] := by decide
  have hempty : ofText top = [] ↔ top = "" := ofText_inj (t := "")
  have hbelow : (ofText top).length < (ofText key).length ∧ ofText top <+: ofText key ∧
      (ofText key)[(ofText top).length]? = some Ascii.point ↔ (top ++ ".").toList <+: key.toList := by
    rw [← concat_prefix_iff, ← hpoint, ← ofText_append, ofText_prefix_iff]
  rw [Bool.eq_iff_iff]
  simp only [atOrUnder, Path.atOrUnder, Bool.or_eq_true, Bool.and_eq_true, List.isEmpty_iff, beq_iff_eq,
    decide_eq_true_eq, List.isPrefixOf_iff_prefix, String.isEmpty_iff, hempty, ofText_inj, hbelow, and_assoc]

end Bytes

/-! ## Paths -/

namespace Path

/-- **Prefixes of keys are prefixes of paths.** For paths whose segments are neither empty nor dotted, the root among
them, a key lies at or below another just when the path starts with the other path, by texts and by bytes; and the path
is read back from its key. -/
theorem atOrUnder_eq_startsWith {p q : Path} (hp : p.Clean) (hq : q.Clean) :
    atOrUnder p.key q.key = p.startsWith q ∧
      Bytes.atOrUnder (Bytes.ofText p.key) (Bytes.ofText q.key) = p.startsWith q ∧ ofKey p.key = p := by
  have hkeys : atOrUnder p.key q.key = p.startsWith q := by
    rw [Bool.eq_iff_iff, atOrUnder_key_iff hq hp, startsWith, List.isPrefixOf_iff_prefix]
  exact ⟨hkeys, (Bytes.atOrUnder_ofText p.key q.key).trans hkeys, ofKey_key hp⟩

/-- The second segment of the one path goes on where that of the other ends, with a character of three bytes; the keys
start alike, and neither path lies below the other. -/
theorem atOrUnder_eq_startsWith_euros :
    Clean ⟨["ö", "€ü"]⟩ ∧ Clean ⟨["ö", "€"]⟩ ∧
      atOrUnder (key ⟨["ö", "€ü"]⟩) (key ⟨["ö", "€"]⟩) = startsWith ⟨["ö", "€ü"]⟩ ⟨["ö", "€"]⟩ ∧
      Bytes.atOrUnder (Bytes.ofText (key ⟨["ö", "€ü"]⟩)) (Bytes.ofText (key ⟨["ö", "€"]⟩)) =
        startsWith ⟨["ö", "€ü"]⟩ ⟨["ö", "€"]⟩ ∧
      ofKey (key ⟨["ö", "€ü"]⟩) = ⟨["ö", "€ü"]⟩ := by
  have hp : Clean ⟨["ö", "€ü"]⟩ := by decide
  have hq : Clean ⟨["ö", "€"]⟩ := by decide
  exact ⟨hp, hq, atOrUnder_eq_startsWith hp hq⟩

end Path

end PathLedger
