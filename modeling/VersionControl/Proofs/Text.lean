import Mathlib.Data.List.Basic
import Mathlib.Data.List.TakeWhile
import VersionControl.Text

/-!
# Cutting texts

What is left of a text after its end is trimmed, and which pieces lie between its separators.
-/

namespace VersionControl.Text

/-! ## Starts -/

theorem startsWith_iff {start text : String} :
    startsWith start text = true ↔ ∃ rest, text = start ++ rest := by
  rw [startsWith, List.isPrefixOf_iff_prefix]
  constructor
  · rintro ⟨rest, h⟩
    exact ⟨String.ofList rest, String.toList_injective (by simp [h])⟩
  · rintro ⟨rest, rfl⟩
    exact ⟨rest.toList, by simp⟩

@[simp] theorem dropStart_append (start rest : String) : dropStart start (start ++ rest) = rest :=
  String.toList_injective (by simp [dropStart, ← String.length_toList])

theorem prefix_of_between {cs ds start : List Char} (hle : ¬cs < start) (hlt : cs < ds)
    (hstart : start <+: ds) : start <+: cs := by
  induction start generalizing cs ds with
  | nil => exact List.nil_prefix
  | cons s start ih =>
      obtain ⟨rest, rfl⟩ := hstart
      cases cs with
      | nil => exact absurd (List.nil_lt_cons s start) hle
      | cons c cs =>
          rw [List.cons_append, List.cons_lt_cons_iff] at hlt
          rw [List.cons_lt_cons_iff, not_or, not_and] at hle
          obtain ⟨rfl, hrest⟩ := hlt.resolve_left hle.1
          exact List.cons_prefix_cons.2 ⟨rfl, ih (hle.2 rfl) hrest (List.prefix_append _ _)⟩

theorem append_lt_append_iff {start cs ds : List Char} : start ++ cs < start ++ ds ↔ cs < ds := by
  induction start with
  | nil => rfl
  | cons c start ih =>
      rw [List.cons_append, List.cons_append, List.cons_lt_cons_iff, ih]
      exact ⟨fun h => (h.resolve_left (Char.lt_irrefl c)).2, fun h => .inr ⟨rfl, h⟩⟩

/-- Whatever stands between a start and a text with that start has the start too. -/
theorem startsWith_of_between {start a b : String} (hle : ¬a < start) (hlt : a < b)
    (hstart : startsWith start b = true) : startsWith start a = true := by
  rw [startsWith, List.isPrefixOf_iff_prefix] at hstart ⊢
  exact prefix_of_between hle hlt hstart

theorem not_startsWith_of_lt {start text : String} (h : text < start) : startsWith start text = false := by
  rw [Bool.eq_false_iff]
  intro hstart
  obtain ⟨rest, rfl⟩ := startsWith_iff.1 hstart
  have hchars : start.toList ++ rest.toList < start.toList := by
    rw [← String.toList_append]
    exact h
  exact List.not_lt.2 List.le_append_left hchars

/-! ## Trimmed ends -/

variable {p : Char → Bool} {text rest : String}

theorem trimEndWhile_append (h : ∀ c ∈ rest.toList, p c = true) :
    trimEndWhile p (text ++ rest) = trimEndWhile p text := by
  rw [trimEndWhile, trimEndWhile, String.toList_append, List.reverse_append,
    List.dropWhile_append_of_pos (fun c hc => h c (List.mem_reverse.1 hc))]

theorem trimEndWhile_eq_self (h : ∀ c ∈ text.toList.getLast?, p c = false) : trimEndWhile p text = text := by
  apply String.toList_injective
  rw [trimEndWhile, String.toList_ofList]
  cases hrev : text.toList.reverse with
  | nil => simpa using hrev.symm
  | cons c cs =>
      have hc : p c = false := h c (by simp [← List.head?_reverse, hrev])
      rw [List.dropWhile_cons_of_neg (by simp [hc]), ← hrev, List.reverse_reverse]

theorem trimEndWhile_getLast? : ∀ c ∈ (trimEndWhile p text).toList.getLast?, p c = false := by
  intro c hc
  rw [trimEndWhile, String.toList_ofList, List.getLast?_reverse] at hc
  have := List.head?_dropWhile_not p text.toList.reverse
  rw [Option.mem_def.1 hc] at this
  simpa using this

theorem trimEndWhile_trimEndWhile (p : Char → Bool) (text : String) :
    trimEndWhile p (trimEndWhile p text) = trimEndWhile p text :=
  trimEndWhile_eq_self trimEndWhile_getLast?

/-- A text with nothing to trim keeps what stands before it from being trimmed. -/
theorem trimEndWhile_append_left (h : trimEndWhile p rest = rest) (hne : rest ≠ "") :
    trimEndWhile p (text ++ rest) = text ++ rest := by
  refine trimEndWhile_eq_self fun c hc => ?_
  have hchars : rest.toList ≠ [] := fun hnil => hne (String.toList_injective (by simp [hnil]))
  rw [String.toList_append, List.getLast?_append_of_ne_nil _ hchars, ← h] at hc
  exact trimEndWhile_getLast? c hc

/-- What is trimmed away is a tail of the text. -/
theorem exists_eq_trimEndWhile_append (p : Char → Bool) (text : String) :
    ∃ tail, text = trimEndWhile p text ++ tail ∧ ∀ c ∈ tail.toList, p c = true := by
  refine ⟨String.ofList (text.toList.reverse.takeWhile p).reverse, ?_, ?_⟩
  · apply String.toList_injective
    rw [trimEndWhile, String.toList_append, String.toList_ofList, String.toList_ofList, ← List.reverse_append,
      List.takeWhile_append_dropWhile, List.reverse_reverse]
  · rw [String.toList_ofList]
    exact fun c hc => List.mem_takeWhile_imp (List.mem_reverse.1 hc)

theorem trimEndWhile_append_of_ne_empty (h : trimEndWhile p rest ≠ "") :
    trimEndWhile p (text ++ rest) = text ++ trimEndWhile p rest := by
  obtain ⟨tail, hrest, htail⟩ := exists_eq_trimEndWhile_append p rest
  calc trimEndWhile p (text ++ rest)
      = trimEndWhile p (text ++ trimEndWhile p rest ++ tail) := by rw [String.append_assoc, ← hrest]
    _ = trimEndWhile p (text ++ trimEndWhile p rest) := trimEndWhile_append htail
    _ = text ++ trimEndWhile p rest := trimEndWhile_append_left (trimEndWhile_trimEndWhile p rest) h

theorem trimEndWhile_eq_empty_iff : trimEndWhile p text = "" ↔ ∀ c ∈ text.toList, p c = true := by
  rw [trimEndWhile, ← String.toList_inj, String.toList_ofList]
  simp [List.dropWhile_eq_nil_iff]

/-! ## Pieces -/

variable {sep : Char} {cs ds dir : List Char}

theorem splitChars_ne_nil (sep : Char) (cs : List Char) : splitChars sep cs ≠ [] := by
  cases cs with
  | nil => simp [splitChars]
  | cons c cs =>
      simp only [splitChars]
      split
      · simp
      · split <;> simp

theorem splitChars_cons_of_ne {c : Char} (h : c ≠ sep) (cs : List Char) : ∃ piece pieces,
    splitChars sep cs = piece :: pieces ∧ splitChars sep (c :: cs) = (c :: piece) :: pieces := by
  obtain ⟨piece, pieces, heq⟩ := List.exists_cons_of_ne_nil (splitChars_ne_nil sep cs)
  exact ⟨piece, pieces, heq, by simp [splitChars, h, heq]⟩

theorem mem_splitChars (sep : Char) {c : Char} (h : c ∈ cs) :
    c = sep ∨ ∃ piece ∈ splitChars sep cs, c ∈ piece := by
  induction cs with
  | nil => simp at h
  | cons d cs ih =>
      by_cases hd : d = sep
      · rcases List.mem_cons.1 h with rfl | h
        · exact .inl hd
        · refine (ih h).imp_right fun ⟨piece, hpiece, hmem⟩ => ⟨piece, ?_, hmem⟩
          rw [splitChars, if_pos hd]
          exact List.mem_cons_of_mem _ hpiece
      · obtain ⟨piece, pieces, heq, hcons⟩ := splitChars_cons_of_ne hd cs
        rw [hcons]
        rcases List.mem_cons.1 h with rfl | h
        · exact .inr ⟨_, List.mem_cons_self, List.mem_cons_self⟩
        · refine (ih h).imp_right fun ⟨other, hother, hmem⟩ => ?_
          rw [heq] at hother
          rcases List.mem_cons.1 hother with rfl | hother
          · exact ⟨_, List.mem_cons_self, List.mem_cons_of_mem _ hmem⟩
          · exact ⟨other, List.mem_cons_of_mem _ hother, hmem⟩

theorem splitChars_append_sep (cs ds : List Char) :
    splitChars sep (cs ++ sep :: ds) = splitChars sep cs ++ splitChars sep ds := by
  induction cs with
  | nil => simp [splitChars]
  | cons c cs ih =>
      by_cases h : c = sep
      · simp [splitChars, h, ih]
      · obtain ⟨piece, pieces, heq, hcons⟩ := splitChars_cons_of_ne h cs
        rw [hcons, List.cons_append, splitChars, if_neg h, ih, heq]
        rfl

theorem splitChars_of_not_mem (h : sep ∉ cs) : splitChars sep cs = [cs] := by
  induction cs with
  | nil => rfl
  | cons c cs ih =>
      simp only [List.mem_cons, not_or] at h
      simp [splitChars, Ne.symm h.1, ih h.2]

/-- Text without a separator only makes the last piece longer. -/
theorem splitChars_append_of_not_mem (cs : List Char) (h : sep ∉ ds) : ∃ pieces last,
    splitChars sep cs = pieces ++ [last] ∧ splitChars sep (cs ++ ds) = pieces ++ [last ++ ds] := by
  induction cs with
  | nil => exact ⟨[], [], rfl, by simpa using splitChars_of_not_mem h⟩
  | cons c cs ih =>
      obtain ⟨pieces, last, heq, happend⟩ := ih
      by_cases hc : c = sep
      · exact ⟨[] :: pieces, last, by simp [splitChars, hc, heq], by simp [splitChars, hc, happend]⟩
      · cases pieces with
        | nil => exact ⟨[], c :: last, by simp [splitChars, hc, heq], by simp [splitChars, hc, happend]⟩
        | cons piece pieces =>
            exact ⟨(c :: piece) :: pieces, last, by simp [splitChars, hc, heq], by
              simp [splitChars, hc, happend]⟩

/-- Pieces that are the first ones of another text end there or before a separator. -/
theorem eq_or_append_sep_of_splitChars_prefix (h : splitChars sep ds <+: splitChars sep cs) :
    ds = cs ∨ ∃ rest, cs = ds ++ sep :: rest := by
  induction ds generalizing cs with
  | nil =>
      cases cs with
      | nil => exact .inl rfl
      | cons c cs =>
          by_cases hc : c = sep
          · exact .inr ⟨cs, by rw [hc]; rfl⟩
          · obtain ⟨piece, pieces, -, hcons⟩ := splitChars_cons_of_ne hc cs
            rw [hcons] at h
            simp [splitChars] at h
  | cons d ds ih =>
      by_cases hd : d = sep
      · rw [splitChars, if_pos hd] at h
        cases cs with
        | nil => simp [splitChars, splitChars_ne_nil] at h
        | cons c cs =>
            by_cases hc : c = sep
            · rw [splitChars, if_pos hc, List.cons_prefix_cons] at h
              rw [hd, hc]
              exact (ih h.2).imp (congrArg (sep :: ·)) fun ⟨rest, hrest⟩ => ⟨rest, by rw [hrest]; rfl⟩
            · obtain ⟨piece, pieces, -, hcons⟩ := splitChars_cons_of_ne hc cs
              simp [hcons] at h
      · obtain ⟨piece, pieces, hpieces, hcons⟩ := splitChars_cons_of_ne hd ds
        rw [hcons] at h
        cases cs with
        | nil => simp [splitChars] at h
        | cons c cs =>
            by_cases hc : c = sep
            · simp [splitChars, hc] at h
            · obtain ⟨piece', pieces', hpieces', hcons'⟩ := splitChars_cons_of_ne hc cs
              rw [hcons', List.cons_prefix_cons, List.cons.injEq] at h
              obtain ⟨⟨rfl, hpiece⟩, hrest⟩ := h
              have htail : splitChars sep ds <+: splitChars sep cs := by
                rw [hpieces, hpieces', List.cons_prefix_cons]
                exact ⟨hpiece, hrest⟩
              exact (ih htail).imp (congrArg (d :: ·)) fun ⟨rest, hrest⟩ => ⟨rest, by rw [hrest]; rfl⟩

theorem mem_beforeEachChars : dir ∈ beforeEachChars sep cs ↔ ∃ rest, cs = dir ++ sep :: rest := by
  induction cs generalizing dir with
  | nil => simp [beforeEachChars]
  | cons c cs ih =>
      have hrest : dir ∈ (beforeEachChars sep cs).map (c :: ·) ↔
          ∃ d rest, dir = c :: d ∧ cs = d ++ sep :: rest := by
        simp only [List.mem_map, ih]
        constructor
        · rintro ⟨d, ⟨rest, hcs⟩, rfl⟩
          exact ⟨d, rest, rfl, hcs⟩
        · rintro ⟨d, rest, rfl, hcs⟩
          exact ⟨d, ⟨rest, hcs⟩, rfl⟩
      have hcases : (∃ rest, c :: cs = dir ++ sep :: rest) ↔
          (dir = [] ∧ c = sep) ∨ ∃ d rest, dir = c :: d ∧ cs = d ++ sep :: rest := by
        cases dir with
        | nil => simp
        | cons d dir =>
            simp only [List.cons_append, List.cons.injEq, reduceCtorEq, false_and, false_or]
            constructor
            · rintro ⟨rest, rfl, rfl⟩
              exact ⟨dir, rest, ⟨rfl, rfl⟩, rfl⟩
            · rintro ⟨d', rest, ⟨rfl, rfl⟩, rfl⟩
              exact ⟨rest, rfl, rfl⟩
      rw [hcases, ← hrest, beforeEachChars]
      by_cases hc : c = sep <;> simp [hc]

theorem beforeEachChars_of_not_mem (h : sep ∉ ds) : beforeEachChars sep ds = [] := by
  rw [List.eq_nil_iff_forall_not_mem]
  intro dir hdir
  obtain ⟨rest, hrest⟩ := mem_beforeEachChars.1 hdir
  exact h (hrest ▸ by simp)

theorem beforeEachChars_append_of_not_mem (cs : List Char) (h : sep ∉ ds) :
    beforeEachChars sep (cs ++ ds) = beforeEachChars sep cs := by
  induction cs with
  | nil => simpa [beforeEachChars] using beforeEachChars_of_not_mem h
  | cons c cs ih => simp [beforeEachChars, ih]

theorem beforeEachChars_append_sep (cs ds : List Char) :
    beforeEachChars sep (cs ++ sep :: ds) =
      beforeEachChars sep cs ++ cs :: (beforeEachChars sep ds).map (cs ++ sep :: ·) := by
  induction cs with
  | nil => simp [beforeEachChars]
  | cons c cs ih =>
      simp only [List.cons_append, beforeEachChars, ih]
      by_cases hc : c = sep <;> simp [hc]

theorem beforeEachChars_eq_nil_or (sep : Char) (cs : List Char) :
    beforeEachChars sep cs = [] ∨ ∃ dir, beforeEachChars sep cs = beforeEachChars sep dir ++ [dir] := by
  by_cases h : sep ∈ cs
  · obtain ⟨last, dir, hreverse, hlast⟩ := List.eq_append_cons_of_mem (List.mem_reverse.2 h)
    have hcs : cs = dir.reverse ++ sep :: last.reverse := by
      rw [← List.reverse_reverse cs, hreverse]
      simp
    have hrest : beforeEachChars sep last.reverse = [] := beforeEachChars_of_not_mem (by simpa using hlast)
    exact .inr ⟨dir.reverse, by rw [hcs, beforeEachChars_append_sep, hrest, List.map_nil]⟩
  · exact .inl (beforeEachChars_of_not_mem h)

/-- What stands before one separator also stands before a separator of all that is longer. -/
theorem beforeEachChars_pairwise (sep : Char) (cs : List Char) :
    (beforeEachChars sep cs).Pairwise (fun dir longer => dir ∈ beforeEachChars sep longer) := by
  induction cs with
  | nil => simp [beforeEachChars]
  | cons c cs ih =>
      have hrest : ((beforeEachChars sep cs).map (c :: ·)).Pairwise
          (fun dir longer => dir ∈ beforeEachChars sep longer) := by
        rw [List.pairwise_map]
        refine ih.imp fun {dir longer} hdir => ?_
        obtain ⟨rest, rfl⟩ := mem_beforeEachChars.1 hdir
        exact mem_beforeEachChars.2 ⟨rest, rfl⟩
      rw [beforeEachChars]
      by_cases hc : c = sep
      · refine (if_pos hc).symm ▸ List.pairwise_cons.2 ⟨?_, hrest⟩
        intro longer hlonger
        obtain ⟨d, -, rfl⟩ := List.mem_map.1 hlonger
        exact mem_beforeEachChars.2 ⟨d, by simp [hc]⟩
      · exact (if_neg hc).symm ▸ hrest

end VersionControl.Text
