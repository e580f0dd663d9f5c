import VersionControl.Branch.Name
import VersionControl.Proofs.Key

/-!
# Keys of branches

What a valid branch name is made of, and that the key of the branch is plain: any backend can store it.
-/

namespace VersionControl

namespace BranchName

variable {name segment : String} {c : Char}

theorem not_isNameChar_slash : isNameChar '/' = false := by decide

/-- The segments of a name that is read to its end are made of name characters, and only the one read into
before may be empty. -/
theorem isSegmented_iff {inSegment : Bool} {cs first : List Char} {rest : List (List Char)}
    (hsplit : Text.splitChars '/' cs = first :: rest) :
    isSegmented inSegment cs = true ↔ (inSegment = true ∨ first ≠ []) ∧
      (∀ c ∈ first, isNameChar c = true) ∧ ∀ piece ∈ rest, piece ≠ [] ∧ ∀ c ∈ piece, isNameChar c = true := by
  induction cs generalizing inSegment first rest with
  | nil =>
      cases hsplit
      simp [isSegmented]
  | cons c cs ih =>
      by_cases hslash : c = '/'
      · subst hslash
        simp only [Text.splitChars, if_true, List.cons.injEq] at hsplit
        obtain ⟨rfl, rfl⟩ := hsplit
        obtain ⟨piece, pieces, hcs⟩ := List.exists_cons_of_ne_nil (Text.splitChars_ne_nil '/' cs)
        simp [isSegmented, not_isNameChar_slash, ih hcs, hcs, and_assoc]
      · obtain ⟨piece, pieces, hcs, hcons⟩ := Text.splitChars_cons_of_ne hslash cs
        rw [hcons] at hsplit
        cases hsplit
        cases hc : isNameChar c <;> simp [isSegmented, hc, hslash, ih hcs]

theorem isSegmented_false_iff {cs : List Char} :
    isSegmented false cs = true ↔
      ∀ piece ∈ Text.splitChars '/' cs, piece ≠ [] ∧ ∀ c ∈ piece, isNameChar c = true := by
  obtain ⟨first, rest, hsplit⟩ := List.exists_cons_of_ne_nil (Text.splitChars_ne_nil '/' cs)
  rw [isSegmented_iff hsplit, hsplit, List.forall_mem_cons]
  simp [and_assoc]

/-- A name other than HEAD is valid by its segments alone. -/
theorem isValid_iff : isValid name = true ↔ name ≠ Head.name ∧ ∀ segment ∈ Key.segments name,
    segment ≠ "" ∧ segment ≠ "." ∧ segment ≠ ".." ∧ ∀ c ∈ segment.toList, isNameChar c = true := by
  have hsegmented : isSegmented false name.toList = true ↔
      ∀ segment ∈ Key.segments name, segment ≠ "" ∧ ∀ c ∈ segment.toList, isNameChar c = true := by
    rw [isSegmented_false_iff, Key.segments, Text.split, List.forall_mem_map]
    simp [String.ext_iff]
  have hreserved : hasReservedSegment name = false ↔
      ∀ segment ∈ Key.segments name, segment ≠ "." ∧ segment ≠ ".." := by
    simp [hasReservedSegment]
  rw [isValid, Bool.and_eq_true, Bool.and_eq_true, decide_eq_true_eq, Bool.not_eq_true', hsegmented, hreserved,
    and_assoc, ← forall₂_and]
  refine and_congr_right fun _ => forall₂_congr fun segment _ => ?_
  tauto

theorem ne_head (h : isValid name = true) : name ≠ Head.name := (isValid_iff.1 h).1

theorem segment_of_isValid (h : isValid name = true) (hsegment : segment ∈ Key.segments name) :
    segment ≠ "" ∧ segment ≠ "." ∧ segment ≠ ".." ∧ ∀ c ∈ segment.toList, isNameChar c = true :=
  (isValid_iff.1 h).2 segment hsegment

theorem isNameChar_or_slash (h : isValid name = true) (hc : c ∈ name.toList) :
    isNameChar c = true ∨ c = '/' := by
  rcases Text.mem_splitChars '/' hc with heq | ⟨piece, hpiece, hmem⟩
  · exact .inr heq
  · have hsegment : String.ofList piece ∈ Key.segments name := List.mem_map_of_mem hpiece
    exact .inl ((segment_of_isValid h hsegment).2.2.2 c (by simpa using hmem))

/-- A name has no blank to trim. -/
theorem trimPointer_eq_self (h : isValid name = true) : Ref.trimPointer name = name := by
  refine Text.trimEndWhile_eq_self fun c hc => ?_
  rcases isNameChar_or_slash h (List.mem_of_getLast? hc) with hname | rfl
  · cases hblank : Ref.isTrailingBlank c with
    | false => rfl
    | true =>
        simp only [Ref.isTrailingBlank, Bool.or_eq_true, decide_eq_true_eq] at hblank
        rcases hblank with (rfl | rfl) | rfl <;> exact absurd hname (by decide)
  · decide

theorem ne_empty (h : isValid name = true) : name ≠ "" := by
  rintro rfl
  exact absurd h (by decide)

end BranchName

namespace Ref

variable {name other : String}

theorem segments_key (name : String) : Key.segments (key name) = "refs" :: "heads" :: Key.segments name := by
  have hkey : key name = "refs" ++ "/" ++ ("heads" ++ "/" ++ name) := by
    simp only [key, directory, ← String.append_assoc]
    rfl
  have hrefs : Key.segments "refs" = ["refs"] := by decide
  have hheads : Key.segments "heads" = ["heads"] := by decide
  rw [hkey, Key.segments_append_slash, Key.segments_append_slash, hrefs, hheads]
  rfl

theorem isPlain_key (h : BranchName.isValid name = true) : Key.IsPlain (key name) := by
  have hchars {c : Char} (hname : BranchName.isNameChar c = false) (hslash : c ≠ '/')
      (hdirectory : c ∉ directory.toList) : c ∉ (key name).toList := by
    simp only [key, String.toList_append, List.mem_append, not_or]
    exact ⟨hdirectory, fun hc => (BranchName.isNameChar_or_slash h hc).elim (by simp [hname]) hslash⟩
  refine ⟨Key.isStorable_iff.2 ⟨hchars (by decide) (by decide) (by decide), ?_⟩,
    hchars (by decide) (by decide) (by decide)⟩
  rw [segments_key, List.forall_mem_cons, List.forall_mem_cons]
  refine ⟨by decide, by decide, fun segment hsegment => ?_⟩
  obtain ⟨hempty, hdot, hdots, hname⟩ := BranchName.segment_of_isValid h hsegment
  have hstaging : Key.isStagingName segment = false := by
    simp only [Key.isStagingName, Text.endsWithChar, decide_eq_false_iff_not]
    intro hlast
    exact absurd (hname '~' (List.mem_of_getLast? hlast)) (by decide)
  simp [Key.isPlainSegment, Key.isSpecialName, hempty, hdot, hdots, hstaging]

theorem isPlain_head : Key.IsPlain Head.name := ⟨by decide, by decide⟩

end Ref

end VersionControl
