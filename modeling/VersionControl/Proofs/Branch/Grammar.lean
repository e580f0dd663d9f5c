import Mathlib.Data.List.Forall2
import VersionControl.Proofs.Branch.Name
import VersionControl.Proofs.Bytes

/-!
# The grammar of branch names

A name is checked character by character, while its grammar speaks of the bytes that a text is stored as. The
two agree in every reading of bytes in which ASCII characters stand for themselves and bytes above them show
nothing of a name: in UTF-8, and in the reading of each byte as the character of its number, which covers the
strings of bytes that are no UTF-8 at all.
-/

namespace VersionControl

namespace Text

/-! ## Characters and bytes -/

/-- A byte below 128 stands for the character of that number, and bytes from there on for the other characters. -/
inductive SpellsChar (c : Char) : List UInt8 → Prop
  | ascii (byte : UInt8) (hsame : c.toNat = byte.toNat) (hlow : byte.toNat < 128) : SpellsChar c [byte]
  | other (first : UInt8) (rest : List UInt8) (hchar : 128 ≤ c.toNat)
      (hhigh : ∀ byte ∈ first :: rest, 128 ≤ byte.toNat) : SpellsChar c (first :: rest)

/-- The bytes spell the characters one after the other. -/
inductive Spells : List Char → List UInt8 → Prop
  | nil : Spells [] []
  | cons {c : Char} {cs : List Char} {piece bytes : List UInt8} :
      SpellsChar c piece → Spells cs bytes → Spells (c :: cs) (piece ++ bytes)

variable {c sep : Char} {cs word : List Char} {piece bytes spelled : List UInt8} {byte : UInt8}

theorem spellsChar_utf8EncodeChar (c : Char) : SpellsChar c (String.utf8EncodeChar c) := by
  have hnumber : c.toNat = c.val.toNat := rfl
  unfold String.utf8EncodeChar
  dsimp only
  split_ifs
  · refine .ascii _ ?_ ?_ <;> rw [UInt8.toNat_ofNat', Nat.mod_eq_of_lt (by omega)] <;> omega
  all_goals
    refine .other _ _ (by omega) ?_
    simp only [List.forall_mem_cons, UInt8.toNat_ofNat', List.not_mem_nil, false_imp_iff, implies_true, and_true]
    omega

theorem spells_bytes (text : String) : Spells text.toList (Text.bytes text) := by
  rw [bytes_eq]
  induction text.toList with
  | nil => exact .nil
  | cons c cs ih => exact .cons (spellsChar_utf8EncodeChar c) ih

theorem spellsChar_ofUInt8 (byte : UInt8) : SpellsChar (Char.ofUInt8 byte) [byte] := by
  have hsame : (Char.ofUInt8 byte).toNat = byte.toNat := UInt8.toNat_toUInt32 byte
  rcases Nat.lt_or_ge byte.toNat 128 with hlow | hhigh
  · exact .ascii byte hsame hlow
  · exact .other byte [] (hsame ▸ hhigh) (by simpa using hhigh)

theorem spells_map_ofUInt8 (bytes : List UInt8) : Spells (bytes.map Char.ofUInt8) bytes := by
  induction bytes with
  | nil => exact .nil
  | cons byte bytes ih => exact .cons (spellsChar_ofUInt8 byte) ih

theorem SpellsChar.ne_nil (h : SpellsChar c piece) : piece ≠ [] := by
  cases h <;> exact List.cons_ne_nil _ _

theorem SpellsChar.mem_iff (h : SpellsChar c piece) (hbyte : byte.toNat < 128) :
    byte ∈ piece ↔ c.toNat = byte.toNat := by
  cases h with
  | ascii only hsame hlow => rw [List.mem_singleton, hsame, ← UInt8.toNat_inj, eq_comm]
  | other first rest hchar hhigh =>
      refine iff_of_false (fun hmem => ?_) (by omega)
      exact absurd (hhigh byte hmem) (by omega)

theorem SpellsChar.append_eq_cons_iff (h : SpellsChar c piece) (hbyte : byte.toNat < 128) :
    piece ++ bytes = byte :: spelled ↔ c.toNat = byte.toNat ∧ bytes = spelled := by
  cases h with
  | ascii only hsame hlow => rw [List.singleton_append, List.cons.injEq, hsame, UInt8.toNat_inj]
  | other first rest hchar hhigh =>
      refine iff_of_false (fun heq => ?_) (by omega)
      obtain ⟨rfl, -⟩ := List.cons.inj heq
      exact absurd (hhigh first List.mem_cons_self) (by omega)

/-! ## Words and pieces -/

theorem Spells.eq_nil_iff (h : Spells cs bytes) : cs = [] ↔ bytes = [] := by
  cases h with
  | nil => simp
  | cons hc _ => simp [hc.ne_nil]

/-- A word in ASCII is spelled in one way only, and no other word is spelled so. -/
theorem Spells.eq_iff (h : Spells cs bytes) (hword : Spells word spelled) (hascii : ∀ c ∈ word, c.toNat < 128) :
    cs = word ↔ bytes = spelled := by
  induction hword generalizing cs bytes with
  | nil => exact h.eq_nil_iff
  | cons hd hrest ih =>
      obtain ⟨hlow, hascii⟩ := List.forall_mem_cons.1 hascii
      cases hd with
      | other first rest hhigh => omega
      | ascii byte hsame hbyte =>
          cases h with
          | nil => simp
          | cons hc hcs =>
              rw [List.cons.injEq, ih hcs hascii, ← Char.toNat_inj, hsame, List.singleton_append,
                hc.append_eq_cons_iff hbyte]

theorem Spells.text_eq_iff {text word : String} (h : Spells text.toList bytes)
    (hascii : word.toList.all (·.toNat < 128) = true) : text = word ↔ bytes = Text.bytes word := by
  rw [← h.eq_iff (spells_bytes word) (by simpa using hascii), String.toList_inj]

/-- Bytes without a separator only make the first piece longer. -/
theorem splitOn_append_of_notMem (h : byte ∉ piece) (bytes : List UInt8) :
    (piece ++ bytes).splitOn byte = (bytes.splitOn byte).modifyHead (piece ++ ·) := by
  induction piece with
  | nil => exact (congrFun List.modifyHead_id _).symm
  | cons first piece ih =>
      simp only [List.mem_cons, not_or] at h
      rw [List.cons_append, List.splitOn_cons_eq_if_modifyHead, if_neg (by simpa using Ne.symm h.1), ih h.2,
        List.modifyHead_modifyHead]
      rfl

/-- Characters and bytes are cut at the same places. -/
theorem Spells.splitChars (h : Spells cs bytes) (hsame : sep.toNat = byte.toNat) (hlow : byte.toNat < 128) :
    List.Forall₂ Spells (splitChars sep cs) (bytes.splitOn byte) := by
  induction h with
  | nil => exact .cons .nil .nil
  | @cons c cs piece bytes hc hcs ih =>
      by_cases hsep : c = sep
      · subst hsep
        rw [(hc.append_eq_cons_iff hlow).2 ⟨hsame, rfl⟩, Text.splitChars, if_pos rfl,
          List.splitOn_cons_eq_if_modifyHead, if_pos (beq_self_eq_true byte)]
        exact .cons .nil ih
      · have hnotMem : byte ∉ piece := by
          rw [hc.mem_iff hlow, ← hsame, Char.toNat_inj]
          exact hsep
        obtain ⟨first, rest, heq, hcons⟩ := splitChars_cons_of_ne hsep cs
        rw [heq] at ih
        rw [hcons, splitOn_append_of_notMem hnotMem]
        cases hsplit : bytes.splitOn byte with
        | nil => exact absurd hsplit (List.splitOn_ne_nil _ _)
        | cons part parts =>
            rw [hsplit, List.forall₂_cons] at ih
            exact .cons (.cons hc ih.1) ih.2

theorem Spells.split {text : String} (h : Spells text.toList bytes) (hsame : sep.toNat = byte.toNat)
    (hlow : byte.toNat < 128) :
    List.Forall₂ (fun piece part => Spells piece.toList part) (split sep text) (bytes.splitOn byte) := by
  rw [Text.split, List.forall₂_map_left_iff]
  simpa only [String.toList_ofList] using h.splitChars hsame hlow

end Text

namespace BranchName

open Text (Spells SpellsChar)

variable {name segment : String} {c : Char} {cs : List Char} {piece bytes : List UInt8} {byte : UInt8}

/-! ## The grammar -/

def IsNameByte (byte : UInt8) : Prop :=
  ('A'.toUInt8 ≤ byte ∧ byte ≤ 'Z'.toUInt8) ∨ ('a'.toUInt8 ≤ byte ∧ byte ≤ 'z'.toUInt8) ∨
    ('0'.toUInt8 ≤ byte ∧ byte ≤ '9'.toUInt8) ∨
      byte = '.'.toUInt8 ∨ byte = '_'.toUInt8 ∨ byte = '-'.toUInt8

def IsSegment (segment : List UInt8) : Prop :=
  segment ≠ [] ∧ segment ≠ Text.bytes "." ∧ segment ≠ Text.bytes ".." ∧ ∀ byte ∈ segment, IsNameByte byte

/-- A name is cut at every slash, also at one that ends it or follows another. -/
def IsName (bytes : List UInt8) : Prop :=
  bytes ≠ Text.bytes "HEAD" ∧ ∀ segment ∈ bytes.splitOn '/'.toUInt8, IsSegment segment

theorem isNameChar_iff_val : isNameChar c = true ↔
    ('A'.val ≤ c.val ∧ c.val ≤ 'Z'.val) ∨ ('a'.val ≤ c.val ∧ c.val ≤ 'z'.val) ∨
      ('0'.val ≤ c.val ∧ c.val ≤ '9'.val) ∨ c = '.' ∨ c = '_' ∨ c = '-' := by
  have halphanum : c.isAlphanum = (c.isUpper || c.isLower || c.isDigit) := rfl
  have hupper : c.isUpper = decide ('A'.val ≤ c.val ∧ c.val ≤ 'Z'.val) := rfl
  have hlower : c.isLower = (decide ('a'.val ≤ c.val) && decide (c.val ≤ 'z'.val)) := rfl
  have hdigit : c.isDigit = (decide ('0'.val ≤ c.val) && decide (c.val ≤ '9'.val)) := rfl
  simp only [isNameChar, halphanum, hupper, hlower, hdigit, Bool.or_eq_true, Bool.and_eq_true, decide_eq_true_eq,
    or_assoc]

theorem isNameChar_iff (hsame : c.toNat = byte.toNat) : isNameChar c = true ↔ IsNameByte byte := by
  have hval : c.val.toNat = byte.toNat := hsame
  simp only [isNameChar_iff_val, IsNameByte, UInt32.le_iff_toNat_le, UInt8.le_iff_toNat_le, ← Char.toNat_inj,
    ← UInt8.toNat_inj, hsame, hval]
  exact Iff.rfl

theorem lt_of_isNameChar (h : isNameChar c = true) : c.toNat < 128 := by
  have hrange {high : Char} (hle : c.val ≤ high.val) (hhigh : high.toNat < 128) : c.toNat < 128 :=
    Nat.lt_of_le_of_lt (UInt32.le_iff_toNat_le.1 hle) hhigh
  rcases isNameChar_iff_val.1 h with ⟨-, hle⟩ | ⟨-, hle⟩ | ⟨-, hle⟩ | rfl | rfl | rfl
  · exact hrange hle (by decide)
  · exact hrange hle (by decide)
  · exact hrange hle (by decide)
  all_goals decide

theorem lt_of_isNameByte (h : IsNameByte byte) : byte.toNat < 128 := by
  have hsame : (Char.ofUInt8 byte).toNat = byte.toNat := UInt8.toNat_toUInt32 byte
  exact hsame ▸ lt_of_isNameChar ((isNameChar_iff hsame).2 h)

theorem forall_isNameByte_iff_of_char (h : SpellsChar c piece) :
    (∀ byte ∈ piece, IsNameByte byte) ↔ isNameChar c = true := by
  cases h with
  | ascii byte hsame _ => rw [List.forall_mem_singleton, isNameChar_iff hsame]
  | other first rest hchar hhigh =>
      refine iff_of_false (fun hbytes => ?_) (fun hname => ?_)
      · have hlow := lt_of_isNameByte (hbytes first List.mem_cons_self)
        exact absurd (hhigh first List.mem_cons_self) (by omega)
      · exact absurd (lt_of_isNameChar hname) (by omega)

theorem forall_isNameByte_iff (h : Spells cs bytes) :
    (∀ byte ∈ bytes, IsNameByte byte) ↔ ∀ c ∈ cs, isNameChar c = true := by
  induction h with
  | nil => simp
  | cons hc _ ih => rw [List.forall_mem_append, List.forall_mem_cons, forall_isNameByte_iff_of_char hc, ih]

theorem isSegment_iff (h : Spells segment.toList bytes) : IsSegment bytes ↔
    segment ≠ "" ∧ segment ≠ "." ∧ segment ≠ ".." ∧ ∀ c ∈ segment.toList, isNameChar c = true := by
  rw [IsSegment, ← forall_isNameByte_iff h, Ne, Ne, Ne, ← h.text_eq_iff (by decide), ← h.text_eq_iff (by decide),
    ← h.eq_nil_iff, String.toList_eq_nil_iff]

theorem forall_isSegment_iff {segments : List String} {parts : List (List UInt8)}
    (h : List.Forall₂ (fun segment part => Spells segment.toList part) segments parts) :
    (∀ part ∈ parts, IsSegment part) ↔ ∀ segment ∈ segments,
      segment ≠ "" ∧ segment ≠ "." ∧ segment ≠ ".." ∧ ∀ c ∈ segment.toList, isNameChar c = true := by
  induction h with
  | nil => simp
  | cons hsegment _ ih => rw [List.forall_mem_cons, List.forall_mem_cons, ih, isSegment_iff hsegment]

theorem isValid_iff_of_spells (h : Spells name.toList bytes) : isValid name = true ↔ IsName bytes := by
  have hparts : List.Forall₂ (fun segment part => Spells segment.toList part) (Key.segments name)
      (bytes.splitOn '/'.toUInt8) := h.split (by decide) (by decide)
  rw [isValid_iff, IsName, forall_isSegment_iff hparts, Ne, Ne, Head.name, h.text_eq_iff (by decide)]

/-- The check of names accepts the grammar and nothing else, whatever bytes it is given: the bytes of a text, and
any others when each is read as the character of its number. -/
theorem isValid_iff_isName : (∀ name : String, isValid name = true ↔ IsName (Text.bytes name)) ∧
    ∀ bytes : List UInt8, isValid (String.ofList (bytes.map Char.ofUInt8)) = true ↔ IsName bytes := by
  refine ⟨fun name => isValid_iff_of_spells (Text.spells_bytes name), fun bytes => isValid_iff_of_spells ?_⟩
  rw [String.toList_ofList]
  exact Text.spells_map_ofUInt8 bytes

end BranchName

end VersionControl
