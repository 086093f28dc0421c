import Mathlib.Data.List.Basic

/-!
# The order of texts and the order of their bytes

Texts are compared character by character. Their UTF-8 bytes are in the same order
(`Text.bytes_lt_iff`): a character of more bytes has the greater first byte, and among characters of
as many bytes the first byte that differs decides like the code points do (`Text.encode_lt_encode`).
Since two different characters differ in one of their bytes, a text starts with another if and only
if its bytes do (`Text.bytes_prefix_iff`).
-/

namespace ModuleForge.Text

open String (utf8EncodeChar)

/-- The bytes of a text. -/
def bytes (s : String) : List UInt8 := s.toByteArray.data.toList

theorem bytes_eq_flatMap (s : String) : bytes s = s.toList.flatMap utf8EncodeChar := by
  have hbytes : s.toByteArray = s.toList.utf8Encode := by
    rw [← String.toByteArray_ofList, String.ofList_toList]
  rw [bytes, hbytes, List.utf8Encode, List.data_toByteArray]

/-! ## One character -/

/-- The byte that carries the last six bits of a number, behind the first byte of a character. -/
def laterByte (n : Nat) : UInt8 := UInt8.ofNat (n % 64 + 128)

theorem ofNat_lt_ofNat {m n : Nat} (hmn : m < n) (hn : n < 256) :
    UInt8.ofNat m < UInt8.ofNat n := by
  rw [UInt8.lt_iff_toNat_lt, UInt8.toNat_ofNat', UInt8.toNat_ofNat']
  omega

theorem cons_ofNat_lt {m n : Nat} (hmn : m < n) (hn : n < 256) (xs ys : List UInt8) :
    UInt8.ofNat m :: xs < UInt8.ofNat n :: ys :=
  List.cons_lt_cons_iff.2 (.inl (ofNat_lt_ofNat hmn hn))

/-- Six bits more: what stands before them decides, and they do if that is the same. -/
theorem append_laterByte_lt {m n : Nat} (front front' : List UInt8) (hmn : m < n)
    (hfront : m / 64 < n / 64 → ∀ xs ys, front ++ xs < front' ++ ys)
    (hsame : m / 64 = n / 64 → front = front') (xs ys : List UInt8) :
    front ++ laterByte m :: xs < front' ++ laterByte n :: ys := by
  rcases Nat.lt_or_eq_of_le (Nat.div_le_div_right (Nat.le_of_lt hmn) : m / 64 ≤ n / 64)
    with hlt | heq
  · exact hfront hlt _ _
  · rw [hsame heq]
    apply List.append_left_lt
    exact cons_ofNat_lt (by omega) (by omega) xs ys

section

variable {m n : Nat} (hmn : m < n)
include hmn

theorem twoBytes_lt (hn : n ≤ 0x7ff) (xs ys : List UInt8) :
    UInt8.ofNat (m / 64 % 32 + 192) :: laterByte m :: xs <
      UInt8.ofNat (n / 64 % 32 + 192) :: laterByte n :: ys := by
  refine append_laterByte_lt [_] [_] hmn (fun hlt us vs => ?_)
    (fun heq => by rw [heq]) xs ys
  exact cons_ofNat_lt (by omega) (by omega) us vs

theorem threeBytes_lt (hn : n ≤ 0xffff) (xs ys : List UInt8) :
    UInt8.ofNat (m / 4096 % 16 + 224) :: laterByte (m / 64) :: laterByte m :: xs <
      UInt8.ofNat (n / 4096 % 16 + 224) :: laterByte (n / 64) :: laterByte n :: ys := by
  have hsame : m / 64 = n / 64 → m / 4096 = n / 4096 := by omega
  refine append_laterByte_lt [_, _] [_, _] hmn (fun hlt us vs => ?_)
    (fun heq => by rw [heq, hsame heq]) xs ys
  refine append_laterByte_lt [_] [_] hlt (fun hlt us vs => ?_)
    (fun heq => ?_) us vs
  · exact cons_ofNat_lt (by omega) (by omega) us vs
  · rw [show m / 4096 = n / 4096 by omega]

theorem fourBytes_lt (hn : n < 0x110000) (xs ys : List UInt8) :
    UInt8.ofNat (m / 262144 % 8 + 240) :: laterByte (m / 4096) :: laterByte (m / 64) ::
        laterByte m :: xs <
      UInt8.ofNat (n / 262144 % 8 + 240) :: laterByte (n / 4096) :: laterByte (n / 64) ::
        laterByte n :: ys := by
  have hsame : m / 64 = n / 64 → m / 4096 = n / 4096 ∧ m / 262144 = n / 262144 := by omega
  refine append_laterByte_lt [_, _, _] [_, _, _] hmn (fun hlt us vs => ?_)
    (fun heq => by rw [heq, (hsame heq).1, (hsame heq).2]) xs ys
  have hsame : m / 64 / 64 = n / 64 / 64 → m / 4096 = n / 4096 ∧ m / 262144 = n / 262144 := by
    omega
  refine append_laterByte_lt [_, _] [_, _] hlt (fun hlt us vs => ?_)
    (fun heq => by rw [(hsame heq).1, (hsame heq).2]) us vs
  have hlt : m / 4096 < n / 4096 := by omega
  refine append_laterByte_lt [_] [_] hlt (fun hlt us vs => ?_)
    (fun heq => ?_) us vs
  · exact cons_ofNat_lt (by omega) (by omega) us vs
  · rw [show m / 262144 = n / 262144 by omega]

end

/-- **The bytes of a smaller character are smaller**, whatever follows them. -/
theorem encode_lt_encode {c d : Char} (h : c < d) (xs ys : List UInt8) :
    utf8EncodeChar c ++ xs < utf8EncodeChar d ++ ys := by
  have hlt : c.val.toNat < d.val.toNat := h
  have hmax : d.val.toNat < 0x110000 := by
    rcases d.valid with hd | hd
    · exact Nat.lt_trans hd (by decide)
    · exact hd.2
  simp only [utf8EncodeChar]
  generalize c.val.toNat = m at hlt ⊢
  generalize d.val.toNat = n at hlt hmax ⊢
  -- by the number of bytes of the smaller character, and then of the greater one
  split
  · split
    · exact cons_ofNat_lt hlt (by omega) xs ys
    split
    · exact cons_ofNat_lt (by omega) (by omega) _ _
    split
    · exact cons_ofNat_lt (by omega) (by omega) _ _
    · exact cons_ofNat_lt (by omega) (by omega) _ _
  rw [if_neg (by omega : ¬ n ≤ 0x7f)]
  split
  · split
    · exact twoBytes_lt hlt (by omega) xs ys
    split
    · exact cons_ofNat_lt (by omega) (by omega) _ _
    · exact cons_ofNat_lt (by omega) (by omega) _ _
  rw [if_neg (by omega : ¬ n ≤ 0x7ff)]
  split
  · split
    · exact threeBytes_lt hlt (by omega) xs ys
    · exact cons_ofNat_lt (by omega) (by omega) _ _
  · rw [if_neg (by omega : ¬ n ≤ 0xffff)]
    exact fourBytes_lt hlt hmax xs ys

theorem eq_of_encode_append_eq {c d : Char} {xs ys : List UInt8}
    (h : utf8EncodeChar c ++ xs = utf8EncodeChar d ++ ys) : c = d := by
  by_cases hcd : c < d
  · exact absurd (h ▸ encode_lt_encode hcd xs ys) (List.lt_irrefl _)
  by_cases hdc : d < c
  · exact absurd (h ▸ encode_lt_encode hdc ys xs) (List.lt_irrefl _)
  · exact Char.le_antisymm (Char.not_lt.1 hdc) (Char.not_lt.1 hcd)

/-! ## Texts -/

theorem flatMap_encode_lt {cs ds : List Char} (h : cs < ds) :
    cs.flatMap utf8EncodeChar < ds.flatMap utf8EncodeChar := by
  induction cs generalizing ds with
  | nil =>
    cases ds with
    | nil => exact absurd h (List.lt_irrefl _)
    | cons d ds =>
      obtain ⟨b, bs, hd⟩ := List.exists_cons_of_ne_nil (String.utf8EncodeChar_ne_nil (c := d))
      rw [List.flatMap_cons, hd]
      exact List.nil_lt_cons b _
  | cons c cs ih =>
    cases ds with
    | nil => exact absurd h (List.not_lt_nil _)
    | cons d ds =>
      rw [List.flatMap_cons, List.flatMap_cons]
      rcases List.cons_lt_cons_iff.1 h with hcd | ⟨rfl, hlt⟩
      · exact encode_lt_encode hcd _ _
      · exact List.append_left_lt (ih hlt)

/-- **The order of texts is the order of their bytes.** -/
theorem bytes_lt_iff {s t : String} : bytes s < bytes t ↔ s < t := by
  rw [bytes_eq_flatMap, bytes_eq_flatMap]
  constructor
  · intro h
    by_cases hts : t < s
    · exact absurd (List.lt_trans h (flatMap_encode_lt hts)) (List.lt_irrefl _)
    by_cases heq : s = t
    · exact absurd (heq ▸ h) (List.lt_irrefl _)
    · by_contra hst
      exact heq (String.le_antisymm (String.not_lt.1 hts) (String.not_lt.1 hst))
  · exact fun h => flatMap_encode_lt h

theorem prefix_of_flatMap_encode {cs ds : List Char}
    (h : cs.flatMap utf8EncodeChar <+: ds.flatMap utf8EncodeChar) : cs <+: ds := by
  induction cs generalizing ds with
  | nil => exact List.nil_prefix
  | cons c cs ih =>
    cases ds with
    | nil =>
      rw [List.flatMap_cons, List.flatMap_nil, List.prefix_nil, List.append_eq_nil_iff] at h
      exact absurd h.1 String.utf8EncodeChar_ne_nil
    | cons d ds =>
      rw [List.flatMap_cons, List.flatMap_cons] at h
      obtain ⟨rest, hrest⟩ := id h
      rw [List.append_assoc] at hrest
      obtain rfl := eq_of_encode_append_eq hrest
      exact List.cons_prefix_cons.2 ⟨rfl, ih ((List.prefix_append_right_inj _).1 h)⟩

/-- A text starts with another if and only if its bytes do. -/
theorem bytes_prefix_iff {s t : String} : bytes s <+: bytes t ↔ s.toList <+: t.toList := by
  rw [bytes_eq_flatMap, bytes_eq_flatMap]
  refine ⟨prefix_of_flatMap_encode, ?_⟩
  rintro ⟨rest, hrest⟩
  rw [← hrest, List.flatMap_append]
  exact List.prefix_append _ _

end ModuleForge.Text
