import PathLedger.Proofs.Operator.Meaning
import PathLedger.Proofs.Path.Groups
import PathLedger.Proofs.Store.Stealth

/-!
# Which pointers can be declared

A pointer is refused at the root, and one without a target is refused anywhere. Both are asked of the text: whether the
path is written with a segment, and the target with a character. What is declared is the normalized path, in which
segments that name nothing are left out. So a path and a target that are written with nothing else pass.

* `Operator.classifyKind_pointer_iff` — when a pointer is accepted, and which one.
* `Operator.Pointed` — what can be said of an accepted pointer.
* `Store.point_pointed` — **an accepted pointer leads from the root, or nowhere, only where its text names nothing**.
* `Store.vacant_pointers` — such texts.
-/

namespace PathLedger

open Text

/-- The key of a text is empty where the text names nothing. -/
theorem Path.canonical_key_eq_empty_iff {raw : String} :
    (canonical raw).key = "" ↔ ∀ s ∈ (parse raw).segments, Vacant (trim s.toList) := by
  rw [← normalize_isRoot_iff]
  constructor
  · intro hkey
    by_contra hroot
    exact key_ne_empty canonical_segments (Bool.eq_false_iff.mpr hroot) hkey
  · intro hroot
    rw [canonical, key, List.isEmpty_iff.mp hroot]
    rfl

namespace Operator

variable {scope path : Path} {v : Value} {i : Instruction}

/-- **A pointer is accepted** from a path and to a target that are written with something, and is declared for what
these are when they are normalized. -/
theorem classifyKind_pointer_iff : classifyKind .pointer scope path v = .ok i ↔
    ∃ target, v = .text target ∧ targetText target ≠ "" ∧ scope.isRoot = false ∧
      i = .point scope.normalize (Path.canonical (targetText target)).key := by
  constructor
  · intro h
    cases v with
    | text target =>
      simp only [classifyKind, expectText, bind, Except.bind] at h
      split at h
      · cases h
      · rename_i htarget
        split at h
        · cases h
        · rename_i hroot
          cases h
          exact ⟨target, rfl, by simpa using htarget, by simpa using hroot, rfl⟩
    | _ => cases h
  · rintro ⟨target, rfl, htarget, hroot, rfl⟩
    simp only [classifyKind, expectText, bind, Except.bind]
    rw [if_neg (by simpa using htarget), if_neg (by simp [hroot])]
    rfl

/-- The raw path that an operator is applied to: the path of the call without its symbol, unless that stands beside
it. -/
def rawScope (path : Path) : Option String → Path
  | none => path.parent
  | some _ => path

theorem parent_of_callPath {registry : Registry} {hint : Option String} {call : Path}
    (h : callPath registry path hint = .ok call) : call.parent = rawScope path hint := by
  cases hint with
  | none =>
    cases h
    rfl
  | some symbol =>
    rw [callPath] at h
    split at h
    · cases h
      rw [Path.parent, Path.child, List.dropLast_concat]
      rfl
    · cases h

/-- A write that declares a pointer is an operator of that kind, applied to the raw scope of the write. -/
theorem classify_point {registry : Registry} {hint : Option String} {p : Path} {key : String}
    (h : classify registry path v hint = .ok (.point p key)) :
    ∃ call, classifyKind .pointer (rawScope path hint) call v = .ok (.point p key) := by
  unfold classify at h
  simp only [bind, Except.bind] at h
  split at h
  · cases h
  · rename_i call hcall
    split at h
    · cases h
    · split at h
      · rcases classifyDefinition_ok h with ⟨_, _, hdefine⟩
        cases hdefine
      · split at h
        · cases h
        · rename_i kind hkind
          have hmeans := classifyKind_ok h
          cases kind <;> simp [Kind.Means] at hmeans
          exact ⟨call, parent_of_callPath hcall ▸ h⟩

/-- What can be said of a pointer that is accepted from a raw path to a target text: both are written with something,
and they name something unless all their segments are vacant. -/
structure Pointed (scope : Path) (target : String) (p : Path) (key : String) : Prop where
  written : scope.isRoot = false
  target_written : targetText target ≠ ""
  root_iff : p.isRoot ↔ ∀ s ∈ scope.segments, Path.Vacant (trim s.toList)
  empty_iff : key = "" ↔ ∀ s ∈ (Path.parse (targetText target)).segments, Path.Vacant (trim s.toList)

theorem pointed_of_classifyKind {p : Path} {key : String}
    (h : classifyKind .pointer scope path v = .ok (.point p key)) :
    ∃ target, v = .text target ∧ Pointed scope target p key := by
  obtain ⟨target, hv, htarget, hroot, heq⟩ := classifyKind_pointer_iff.mp h
  obtain ⟨hp, hkey⟩ := Instruction.point.inj heq
  refine ⟨target, hv, hroot, htarget, ?_, ?_⟩
  · rw [hp]
    exact Path.normalize_isRoot_iff
  · rw [hkey]
    exact Path.canonical_key_eq_empty_iff

end Operator

namespace Store

open Operator

/-- **An accepted pointer starts at the root only where its path names nothing, and has no target only where the target
text names nothing.** This holds of writes, under all registries, and of pointers that are declared by name. -/
theorem point_pointed (raw : String) (p : Path) (key : String) :
    (∀ registry v hint, classify registry (Path.parse raw) v hint = .ok (.point p key) →
      ∃ target, v = .text target ∧ Pointed (rawScope (Path.parse raw) hint) target p key) ∧
      ∀ target, kindAt .pointer raw (.text target) = .ok (.point p key) → Pointed (Path.parse raw) target p key := by
  constructor
  · intro registry v hint h
    obtain ⟨call, hkind⟩ := classify_point h
    exact pointed_of_classifyKind hkind
  · intro target h
    obtain ⟨_, heq, hpointed⟩ := pointed_of_classifyKind h
    cases heq
    exact hpointed

/-- A vacant group beside a name, and a dot before the target. -/
theorem point_pointed_beside :
    classify .initial (Path.parse "me[ '' ].__") (.text " .x") none = .ok (.point ⟨["me"]⟩ "x") ∧
      (∃ target, Value.text " .x" = .text target ∧
        Pointed (rawScope (Path.parse "me[ '' ].__") none) target ⟨["me"]⟩ "x") ∧
      kindAt .pointer "[].me" (.text "x") = .ok (.point ⟨["me"]⟩ "x") ∧
      Pointed (Path.parse "[].me") "x" ⟨["me"]⟩ "x" := by
  have hwrite : classify .initial (Path.parse "me[ '' ].__") (.text " .x") none = .ok (.point ⟨["me"]⟩ "x") := by
    decide +kernel
  have hcall : kindAt .pointer "[].me" (.text "x") = .ok (.point ⟨["me"]⟩ "x") := by decide +kernel
  exact ⟨hwrite, (point_pointed _ _ _).1 _ _ _ hwrite, hcall, (point_pointed _ _ _).2 _ hcall⟩

/-- **Pointers are accepted at the root, and without a target.** An empty pair of brackets is a segment, and brackets or
a second dot are characters, but none of them names anything. -/
theorem vacant_pointers :
    classify .initial (Path.parse "[].__") (.text "x") none = .ok (.point .root "x") ∧
      kindAt .pointer "[]" (.text "x") = .ok (.point .root "x") ∧
      classify .initial (Path.parse "a.__") (.text "[]") none = .ok (.point ⟨["a"]⟩ "") ∧
      kindAt .pointer "a" (.text ". .") = .ok (.point ⟨["a"]⟩ "") := by
  decide +kernel

end Store

end PathLedger
