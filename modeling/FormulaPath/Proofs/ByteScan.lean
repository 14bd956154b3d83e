import FormulaPath.Proofs.Split

/-!
# Reading a text by its bytes

Parts can be found in the bytes of a text, without decoding any character: a dot, a bracket and a
quote are one byte each, and every byte of a character beyond ASCII is larger than theirs
(`mem_utf8EncodeChar_iff`). So no such byte is mistaken for the end of a part, and the part that is
found in the bytes is as wide as the one found in the characters (`partWidth_encode`): its end never
falls inside a character.
-/
namespace FormulaPath

namespace Text

/-- The UTF-8 form of characters. -/
def encode (cs : List Char) : List UInt8 := cs.flatMap String.utf8EncodeChar

/-- The bytes of a text. -/
def octets (text : String) : List UInt8 := text.toByteArray.data.toList

theorem octets_eq_encode (text : String) : octets text = encode text.toList := by
  rw [octets,← String.utf8Encode_toList]
  exact List.toList_data_toByteArray

@[simp] theorem encode_nil : encode [] = [] := rfl

@[simp] theorem encode_cons (c : Char) (cs : List Char) :
    encode (c :: cs) = String.utf8EncodeChar c ++ encode cs := rfl

@[simp] theorem encode_append (l r : List Char) : encode (l ++ r) = encode l ++ encode r :=
  List.flatMap_append

@[simp] theorem length_encode (cs : List Char) : (encode cs).length = bytes cs := by
  induction cs with
  | nil => rfl
  | cons c cs ih => simp [ih]

theorem length_octets (text : String) : (octets text).length = text.utf8ByteSize := by
  rw [octets_eq_encode,length_encode,bytes_toList]

/-- The bytes behind a place between two characters are those of the characters behind it. -/
theorem drop_octets {text : String} {front rest : List Char} (h : text.toList = front ++ rest) :
    (octets text).drop (bytes front) = encode rest := by
  rw [octets_eq_encode,h,encode_append,← length_encode front,List.drop_left]

theorem utf8EncodeChar_of_ascii {c : Char} (h : c.toNat < 128) :
    String.utf8EncodeChar c = [c.toUInt8] := by
  apply String.utf8EncodeChar_eq_singleton
  rw [Char.utf8Size_eq_one_iff,UInt32.le_iff_toNat_le]
  change c.toNat ≤ 127
  omega

theorem le_of_mem_utf8EncodeChar {c : Char} (h : 128 ≤ c.toNat) {b : UInt8}
    (hb : b ∈ String.utf8EncodeChar c) : 128 ≤ b.toNat := by
  have hor (a k : UInt8) (hk : 128 ≤ k.toNat) : 128 ≤ (a ||| k).toNat := by
    rw [UInt8.toNat_or]
    exact hk.trans Nat.right_le_or
  rcases Char.utf8Size_eq c with hsize | hsize | hsize | hsize
  · rw [Char.utf8Size_eq_one_iff,UInt32.le_iff_toNat_le] at hsize
    change c.toNat ≤ 127 at hsize
    omega
  · rw [String.utf8EncodeChar_eq_cons_cons hsize] at hb
    simp only [List.mem_cons, List.not_mem_nil, or_false] at hb
    rcases hb with rfl | rfl <;> exact hor _ _ (by decide)
  · rw [String.utf8EncodeChar_eq_cons_cons_cons hsize] at hb
    simp only [List.mem_cons, List.not_mem_nil, or_false] at hb
    rcases hb with rfl | rfl | rfl <;> exact hor _ _ (by decide)
  · rw [String.utf8EncodeChar_eq_cons_cons_cons_cons hsize] at hb
    simp only [List.mem_cons, List.not_mem_nil, or_false] at hb
    rcases hb with rfl | rfl | rfl | rfl <;> exact hor _ _ (by decide)

theorem toNat_toUInt8 {c : Char} (h : c.toNat < 128) : c.toUInt8.toNat = c.toNat := by
  rw [Char.toUInt8,UInt32.toNat_toUInt8]
  change c.toNat % 256 = c.toNat
  omega

/-- The byte of an ASCII character occurs in no other character. -/
theorem mem_utf8EncodeChar_iff {c d : Char} (hd : d.toNat < 128) :
    d.toUInt8 ∈ String.utf8EncodeChar c ↔ c = d := by
  constructor
  · intro hmem
    by_cases hc : c.toNat < 128
    · rw [utf8EncodeChar_of_ascii hc,List.mem_singleton] at hmem
      have hcode := congrArg UInt8.toNat hmem
      rw [toNat_toUInt8 hc,toNat_toUInt8 hd] at hcode
      exact Char.toNat_inj.mp hcode.symm
    · have hle := le_of_mem_utf8EncodeChar (Nat.le_of_not_lt hc) hmem
      rw [toNat_toUInt8 hd] at hle
      omega
  · rintro rfl
    rw [utf8EncodeChar_of_ascii hd]
    exact List.mem_singleton.mpr rfl

theorem eq_toUInt8_iff {c d : Char} (hd : d.toNat < 128) {b : UInt8}
    (hb : b ∈ String.utf8EncodeChar c) : b = d.toUInt8 ↔ c = d := by
  constructor
  · rintro rfl
    exact (mem_utf8EncodeChar_iff hd).mp hb
  · rintro rfl
    rw [utf8EncodeChar_of_ascii hd] at hb
    exact List.mem_singleton.mp hb

/-- The byte behind a place between two characters belongs to the character behind it. -/
theorem exists_getElem?_octets {text : String} {front rest : List Char} {c : Char}
    (h : text.toList = front ++ c :: rest) :
    ∃ b ∈ String.utf8EncodeChar c, (octets text)[bytes front]? = some b := by
  have hne : String.utf8EncodeChar c ≠ [] := String.utf8EncodeChar_ne_nil
  refine ⟨(String.utf8EncodeChar c).head hne,List.head_mem hne,?_⟩
  rw [← List.head?_drop,drop_octets h,encode_cons,List.head?_append_of_ne_nil _ hne,
    List.head?_eq_some_head]

end Text

namespace Path
open Text

/-- Number of bytes up to and with the first `]` outside quotes, or of all bytes. -/
def bracketWidth (quoted : Bool) : List UInt8 → Nat
  | [] => 0
  | b :: bs =>
    if b = ']'.toUInt8 ∧ quoted = false then 1
    else bracketWidth (if b = '"'.toUInt8 then !quoted else quoted) bs + 1

/-- Whether a byte ends a name part. -/
def breaksName (b : UInt8) : Bool := b == '.'.toUInt8 || b == '['.toUInt8

theorem breaksName_iff {b : UInt8} :
    breaksName b = true ↔ b = '.'.toUInt8 ∨ b = '['.toUInt8 := by
  simp [breaksName]

/-- Number of bytes of the part at the start of the bytes. -/
def partWidth (bs : List UInt8) : Nat :=
  if bs.head? = some '['.toUInt8 then bracketWidth false bs.tail + 1 else bs.findIdx breaksName

theorem bracketWidth_le (quoted : Bool) (bs : List UInt8) :
    bracketWidth quoted bs ≤ bs.length := by
  induction bs generalizing quoted with
  | nil => exact Nat.le_refl 0
  | cons b bs ih =>
      rw [bracketWidth]
      split_ifs
      · simp
      · exact Nat.succ_le_succ (ih _)
      · exact Nat.succ_le_succ (ih _)

theorem partWidth_le (bs : List UInt8) : partWidth bs ≤ bs.length := by
  unfold partWidth
  split_ifs with hopen
  · obtain ⟨bs,rfl⟩ := List.head?_eq_some_iff.mp hopen
    exact Nat.succ_le_succ (bracketWidth_le false bs)
  · exact List.findIdx_le_length

/-- A part that does not open with a dot is not empty. -/
theorem partWidth_pos {b : UInt8} (hb : b ≠ '.'.toUInt8) (bs : List UInt8) :
    0 < partWidth (b :: bs) := by
  unfold partWidth
  split_ifs with hopen
  · exact Nat.succ_pos _
  · have hplain : breaksName b = false := by
      rw [Bool.eq_false_iff,ne_eq,breaksName_iff]
      rintro (hdot | hbracket)
      · exact hb hdot
      · exact hopen (congrArg some hbracket)
    rw [List.findIdx_cons,hplain]
    exact Nat.succ_pos _

theorem bracketWidth_append {quoted : Bool} {l : List UInt8}
    (hclose : quoted = false → ']'.toUInt8 ∉ l) (hquote : '"'.toUInt8 ∉ l) (r : List UInt8) :
    bracketWidth quoted (l ++ r) = l.length + bracketWidth quoted r := by
  induction l with
  | nil => simp
  | cons b l ih =>
      simp only [List.mem_cons, not_or] at hclose hquote
      have hb : ¬ (b = ']'.toUInt8 ∧ quoted = false) := fun h => (hclose h.2).1 h.1.symm
      rw [List.cons_append,bracketWidth,if_neg hb,if_neg (Ne.symm hquote.1),
        ih (fun h => (hclose h).2) hquote.2,List.length_cons]
      omega

theorem bracketWidth_encode (quoted : Bool) (cs : List Char) :
    bracketWidth quoted (encode cs) = bytes (takeBracket quoted cs).1 := by
  induction cs generalizing quoted with
  | nil => rfl
  | cons c cs ih =>
      by_cases hclose : c = ']' ∧ quoted = false
      · obtain ⟨rfl,rfl⟩ := hclose
        rfl
      rw [takeBracket,if_neg hclose,encode_cons]
      by_cases hquote : c = '"'
      · subst hquote
        rw [utf8EncodeChar_of_ascii (by decide),List.singleton_append,bracketWidth,
          if_neg fun h => absurd h.1 (by decide),if_pos rfl,ih]
        exact Nat.add_comm _ _
      · rw [bracketWidth_append _ _ (encode cs),String.length_utf8EncodeChar,ih,if_neg hquote]
        · rfl
        · intro hopen hmem
          exact hclose ⟨(mem_utf8EncodeChar_iff (by decide)).mp hmem,hopen⟩
        · intro hmem
          exact hquote ((mem_utf8EncodeChar_iff (by decide)).mp hmem)

theorem findIdx_encode (cs : List Char) :
    (encode cs).findIdx breaksName = bytes (takeName cs).1 := by
  induction cs with
  | nil => rfl
  | cons c cs ih =>
      by_cases hc : endsName c = true
      · have htake : (takeName (c :: cs)).1 = [] := by simp [takeName, hc]
        rw [htake]
        simp only [endsName, Bool.or_eq_true, beq_iff_eq] at hc
        rcases hc with rfl | rfl <;> rfl
      · have htake : (takeName (c :: cs)).1 = c :: (takeName cs).1 := by simp [takeName, hc]
        have hplain : ∀ b ∈ String.utf8EncodeChar c, ¬ breaksName b = true := by
          intro b hb hbreak
          apply hc
          rcases breaksName_iff.mp hbreak with rfl | rfl
          · rw [(mem_utf8EncodeChar_iff (by decide)).mp hb]
            rfl
          · rw [(mem_utf8EncodeChar_iff (by decide)).mp hb]
            rfl
        have hwidth : (String.utf8EncodeChar c).findIdx breaksName = c.utf8Size := by
          rw [List.findIdx_eq_length.mpr (by simpa using hplain),String.length_utf8EncodeChar]
        rw [htake,encode_cons,List.findIdx_append,hwidth,String.length_utf8EncodeChar,ih]
        simp [Nat.add_comm]

theorem head?_encode_iff {cs : List Char} :
    (encode cs).head? = some '['.toUInt8 ↔ cs.head? = some '[' := by
  cases cs with
  | nil => simp
  | cons c cs =>
      rw [encode_cons,List.head?_append_of_ne_nil _ String.utf8EncodeChar_ne_nil,List.head?_cons,
        Option.some_inj]
      constructor
      · intro h
        exact (mem_utf8EncodeChar_iff (by decide)).mp (List.mem_of_mem_head? h)
      · rintro rfl
        rfl

/-- The first part is as wide in the bytes as in the characters. -/
theorem partWidth_encode (cs : List Char) :
    partWidth (encode cs) = bytes (takePart cs).1 := by
  unfold partWidth
  split_ifs with hopen
  · obtain ⟨cs,rfl⟩ := List.head?_eq_some_iff.mp (head?_encode_iff.mp hopen)
    change bracketWidth false (encode cs) + 1 = bytes ('[' :: (takeBracket false cs).1)
    rw [bracketWidth_encode,bytes_cons]
    exact Nat.add_comm _ _
  · rw [takePart_of_head (mt head?_encode_iff.mpr hopen),findIdx_encode]

end Path

end FormulaPath
