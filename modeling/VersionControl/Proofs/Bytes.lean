import Mathlib.Data.List.Basic
import VersionControl.Proofs.Text

/-!
# Texts as bytes

Texts compare as their bytes in UTF-8 do, and one is the start of another if its bytes are: the first character
in which two texts differ already decides both. The same holds of every code in which a character can be told from
what follows it, such as one byte for each character.
-/

namespace VersionControl.Text

def bytes (text : String) : List UInt8 := text.toByteArray.data.toList

theorem bytes_eq (text : String) : bytes text = text.toList.flatMap String.utf8EncodeChar := by
  rw [bytes, ← String.utf8Encode_toList, List.utf8Encode, List.data_toByteArray]

variable {c d : Char} {cs ds : List Char} {xs ys : List UInt8} {a b : String} {encode : Char → List UInt8}
  {chars : Char → Prop}

/-! ## Codes -/

/-- Whatever follows, characters compare as their codes do, and no code starts another. -/
structure IsCode (encode : Char → List UInt8) (chars : Char → Prop) : Prop where
  ne_nil : ∀ {c}, chars c → encode c ≠ []
  append_lt : ∀ {c d}, chars c → chars d → c < d → ∀ xs ys, encode c ++ xs < encode d ++ ys
  separates : ∀ {c d xs ys}, chars c → chars d → encode c ++ xs <+: encode d ++ ys → c = d ∧ xs <+: ys

theorem IsCode.flatMap_lt (h : IsCode encode chars) (hcs : ∀ c ∈ cs, chars c) (hds : ∀ d ∈ ds, chars d)
    (hlt : cs < ds) : cs.flatMap encode < ds.flatMap encode := by
  induction cs generalizing ds with
  | nil =>
      cases ds with
      | nil => exact absurd hlt (List.lt_irrefl _)
      | cons d ds =>
          rw [List.flatMap_cons]
          cases hbytes : encode d with
          | nil => exact absurd hbytes (h.ne_nil (hds d List.mem_cons_self))
          | cons byte rest => exact List.nil_lt_cons byte _
  | cons c cs ih =>
      cases ds with
      | nil => exact absurd hlt (List.not_lt_nil _)
      | cons d ds =>
          rw [List.forall_mem_cons] at hcs hds
          rw [List.flatMap_cons, List.flatMap_cons]
          rcases List.cons_lt_cons_iff.1 hlt with hfirst | ⟨rfl, hrest⟩
          · exact h.append_lt hcs.1 hds.1 hfirst _ _
          · exact List.append_left_lt (ih hcs.2 hds.2 hrest)

theorem IsCode.prefix_of_flatMap (h : IsCode encode chars) (hcs : ∀ c ∈ cs, chars c) (hds : ∀ d ∈ ds, chars d)
    (hstarts : cs.flatMap encode <+: ds.flatMap encode) : cs <+: ds := by
  induction cs generalizing ds with
  | nil => exact List.nil_prefix
  | cons c cs ih =>
      rw [List.forall_mem_cons] at hcs
      cases ds with
      | nil => simp [h.ne_nil hcs.1] at hstarts
      | cons d ds =>
          rw [List.forall_mem_cons] at hds
          rw [List.flatMap_cons, List.flatMap_cons] at hstarts
          obtain ⟨rfl, hrest⟩ := h.separates hcs.1 hds.1 hstarts
          exact List.cons_prefix_cons.2 ⟨rfl, ih hcs.2 hds.2 hrest⟩

theorem IsCode.flatMap_prefix_iff (h : IsCode encode chars) (hcs : ∀ c ∈ cs, chars c) (hds : ∀ d ∈ ds, chars d) :
    cs.flatMap encode <+: ds.flatMap encode ↔ cs <+: ds := by
  refine ⟨h.prefix_of_flatMap hcs hds, ?_⟩
  rintro ⟨rest, rfl⟩
  rw [List.flatMap_append]
  exact List.prefix_append _ _

/-! ## UTF-8 -/

theorem utf8EncodeChar_append_lt (h : c < d) (xs ys : List UInt8) :
    String.utf8EncodeChar c ++ xs < String.utf8EncodeChar d ++ ys := by
  have hlt : c.val.toNat < d.val.toNat := h
  have hbound : d.val.toNat < 0x110000 := d.valid.elim (by omega) (by omega)
  have hdiv (n : Nat) : n / 64 / 64 = n / 4096 ∧ n / 4096 / 64 = n / 262144 := by
    simp only [Nat.div_div_eq_div_mul, Nat.reduceMul, and_self]
  have hc := hdiv c.val.toNat
  have hd := hdiv d.val.toNat
  -- one case for each number of bytes on either side
  unfold String.utf8EncodeChar
  dsimp only
  split_ifs <;>
    simp (disch := omega) only [List.cons_append, List.nil_append, List.cons_lt_cons_iff,
      UInt8.lt_iff_toNat_lt, ← UInt8.toNat_inj, UInt8.toNat_ofNat', Nat.mod_eq_of_lt] <;> omega

theorem eq_and_prefix_of_utf8EncodeChar (h : String.utf8EncodeChar c ++ xs <+: String.utf8EncodeChar d ++ ys) :
    c = d ∧ xs <+: ys := by
  have hc : c.val.toNat < 0x110000 := c.valid.elim (by omega) (by omega)
  have hd : d.val.toNat < 0x110000 := d.valid.elim (by omega) (by omega)
  have heq : c = d := by
    refine Char.ext (UInt32.toNat_inj.1 ?_)
    unfold String.utf8EncodeChar at h
    dsimp only at h
    split_ifs at h <;>
      simp (disch := omega) only [List.cons_append, List.nil_append, List.cons_prefix_cons,
        ← UInt8.toNat_inj, UInt8.toNat_ofNat', Nat.mod_eq_of_lt] at h <;> omega
  subst heq
  exact ⟨rfl, (List.prefix_append_right_inj _).1 h⟩

theorem isCode_utf8EncodeChar : IsCode String.utf8EncodeChar fun _ => True where
  ne_nil _ := String.utf8EncodeChar_ne_nil
  append_lt _ _ h := utf8EncodeChar_append_lt h
  separates _ _ := eq_and_prefix_of_utf8EncodeChar

theorem bytes_lt_of_lt (h : a < b) : bytes a < bytes b := by
  rw [bytes_eq, bytes_eq]
  exact isCode_utf8EncodeChar.flatMap_lt (by simp) (by simp) (show a.toList < b.toList from h)

theorem bytes_prefix_iff : bytes a <+: bytes b ↔ startsWith a b = true := by
  rw [startsWith, List.isPrefixOf_iff_prefix, bytes_eq, bytes_eq]
  exact isCode_utf8EncodeChar.flatMap_prefix_iff (by simp) (by simp)

/-! ## One byte for each character -/

/-- The text stands for any string of bytes, each read as the character of its number. -/
def IsRaw (text : String) : Prop := ∀ c ∈ text.toList, c.toNat < 256

def rawBytes (text : String) : List UInt8 := text.toList.map Char.toUInt8

theorem rawBytes_eq (text : String) : rawBytes text = text.toList.flatMap fun c => [c.toUInt8] :=
  List.map_eq_flatMap

theorem toNat_toUInt8 (h : c.toNat < 256) : c.toUInt8.toNat = c.toNat :=
  Nat.mod_eq_of_lt h

theorem isCode_toUInt8 : IsCode (fun c => [c.toUInt8]) fun c => c.toNat < 256 where
  ne_nil _ := List.cons_ne_nil _ _
  append_lt hc hd h xs ys := by
    refine List.cons_lt_cons_iff.2 (.inl ?_)
    rw [UInt8.lt_iff_toNat_lt, toNat_toUInt8 hc, toNat_toUInt8 hd]
    exact h
  separates hc hd h := by
    obtain ⟨heq, hrest⟩ := List.cons_prefix_cons.1 h
    rw [← UInt8.toNat_inj, toNat_toUInt8 hc, toNat_toUInt8 hd, Char.toNat_inj] at heq
    exact ⟨heq, hrest⟩

end VersionControl.Text
